import Mathlib.Data.List.Basic
import MethodCompiler.Decimal.Layout
import MethodCompiler.Proofs.TreeFormat
import MethodCompiler.Source.Dump

/-!
# What a dump shows of a tree

A dump leaves out the types of fields and calls and writes the type of a local as text. An
outline is a tree without these types, and the dump shows all of it: two trees with the same
dump have the same outline. Doubles are compared by the text they are written as, in dumps as in
outlines.

A node of a dump is an object with one key, and the key is the kind of the node with its line.
No kind has a colon in it, so the key tells both, and the kind tells the form of a statement or an
expression. After that only nodes of one form have to be compared, part by part: what may be
absent is null then, and no node is.
-/

namespace MethodCompiler

/-! ## Doubles as texts -/

namespace Json

mutual

/-- The value with each double replaced by its text. -/
def spelled : Json → Json
  | .double x => .string (Layout.json.text x)
  | .array items => .array (spelledAll items)
  | .object members => .object (spelledMembers members)
  | .null => .null
  | .bool b => .bool b
  | .integer n => .integer n
  | .string s => .string s
  | .unreadable => .unreadable
termination_by structural j => j

def spelledAll : List Json → List Json
  | [] => []
  | j :: rest => j.spelled :: spelledAll rest
termination_by structural js => js

def spelledMembers : List (String × Json) → List (String × Json)
  | [] => []
  | m :: rest => spelledMember m :: spelledMembers rest
termination_by structural ms => ms

def spelledMember : String × Json → String × Json
  | (key, j) => (key, j.spelled)
termination_by structural m => m

end

/-! Values are spelled alike if their parts are. -/

variable {j j' : Json} {js js' : List Json} {ms ms' : List (String × Json)}

@[simp]
theorem spelled_array_inj : (array js).spelled = (array js').spelled ↔
    spelledAll js = spelledAll js' := by
  simp only [spelled, array.injEq]

@[simp]
theorem spelledAll_cons_inj : spelledAll (j :: js) = spelledAll (j' :: js') ↔
    j.spelled = j'.spelled ∧ spelledAll js = spelledAll js' := by
  simp only [spelledAll, List.cons.injEq]

@[simp]
theorem spelled_object_inj : (object ms).spelled = (object ms').spelled ↔
    spelledMembers ms = spelledMembers ms' := by
  simp only [spelled, object.injEq]

@[simp]
theorem spelledMembers_cons_inj {key key' : String} :
    spelledMembers ((key, j) :: ms) = spelledMembers ((key', j') :: ms') ↔
      (key = key' ∧ j.spelled = j'.spelled) ∧ spelledMembers ms = spelledMembers ms' := by
  simp only [spelledMembers, spelledMember, List.cons.injEq, Prod.mk.injEq]

@[simp]
theorem spelled_string_inj {s s' : String} : (string s).spelled = (string s').spelled ↔ s = s' := by
  simp only [spelled, string.injEq]

end Json

/-! ## Operators -/

/-- Each operator is the one that is found by its symbol. -/
theorem BinaryOp.symbol_injective : Function.Injective BinaryOp.symbol := by
  have hfound : ∀ op : BinaryOp, all.find? (fun other => other.symbol == op.symbol) = some op := by
    intro op
    cases op <;> rfl
  intro op op' h
  exact Option.some.inj (by rw [← hfound, h, hfound])

theorem UnaryOp.name_injective : Function.Injective UnaryOp.name := fun op op' h =>
  Option.some.inj (by rw [← ofName?_name, h, ofName?_name])

theorem UpdateOp.name_injective : Function.Injective UpdateOp.name := fun op op' h =>
  Option.some.inj (by rw [← ofName?_name, h, ofName?_name])

namespace Source

/-! ## Outlines -/

namespace Outline

/-- A constant, of which a double is only known by its text. -/
inductive Literal where
  | int (v : Int32)
  | long (v : Int64)
  | double (text : String)
  | boolean (v : Bool)
  | null

/-- An expression without the types of fields and calls. -/
inductive Expr where
  | literal (line : UInt32) (value : Literal)
  | var (line : UInt32) (name : String)
  | field (line : UInt32) (target : Expr) (name : String)
  | assignment (line : UInt32) (target value : Expr)
  | binary (line : UInt32) (op : BinaryOp) (left right : Expr)
  | unary (line : UInt32) (op : UnaryOp) (argument : Expr)
  | update (line : UInt32) (op : UpdateOp) (argument : Expr)
  | call (line : UInt32) (callee : String) (arguments : List Expr)
  | new (line : UInt32) (className : String)

/-- A label of a switch group. -/
inductive Label where
  | case (value : Expr)
  | default

/-- Labels and the statements they lead to. -/
structure Group (σ : Type) where
  labels : List Label
  body : List σ

/-- A statement without the types of fields and calls. The type of a local is a text. -/
inductive Stmt where
  | block (block : Block Stmt)
  | localDecl (line : UInt32) (name : String) (ty : String) (init : Option Expr)
  | expression (line : UInt32) (expression : Expr)
  | ifElse (line : UInt32) (condition : Expr) (consequent : Stmt) (alternate : Option Stmt)
  | whileLoop (line : UInt32) (condition : Expr) (body : Stmt)
  | doLoop (line : UInt32) (body : Stmt) (condition : Expr)
  | forLoop (line : UInt32) (init : List Stmt) (condition : Option Expr) (update : List Stmt)
      (body : Stmt)
  | switch (line : UInt32) (selector : Expr) (groups : List (Group Stmt))
  | breakJump (line : UInt32)
  | continueJump (line : UInt32)
  | tryCatch (line : UInt32) (block : Block Stmt) (catches : List (CatchClause Stmt))
      (finalizer : Option (Block Stmt))
  | throw (line : UInt32) (argument : Expr)
  | empty

end Outline

/-- A constant with the text of a double in its place. -/
def Literal.outline : Literal → Outline.Literal
  | .int v => .int v
  | .long v => .long v
  | .double v => .double (Layout.json.text v)
  | .boolean v => .boolean v
  | .null => .null

mutual

/-- An expression without the types of fields and calls. -/
def Expr.outline : Expr → Outline.Expr
  | .literal line value => .literal line value.outline
  | .var line name => .var line name
  | .field line target name _ => .field line target.outline name
  | .assignment line target value => .assignment line target.outline value.outline
  | .binary line op left right => .binary line op left.outline right.outline
  | .unary line op argument => .unary line op argument.outline
  | .update line op argument => .update line op argument.outline
  | .call line callee arguments _ => .call line callee (Expr.outlines arguments)
  | .new line className => .new line className
termination_by structural e => e

def Expr.outlines : List Expr → List Outline.Expr
  | [] => []
  | e :: rest => e.outline :: Expr.outlines rest
termination_by structural es => es

end

def CaseLabel.outline : CaseLabel → Outline.Label
  | .case value => .case value.outline
  | .default => .default

mutual

/-- A statement without the types of fields and calls, and with the text of the type of a
local. -/
def Stmt.outline : Stmt → Outline.Stmt
  | .block ⟨line, body⟩ => .block ⟨line, Stmt.outlines body⟩
  | .localDecl line name ty init => .localDecl line name ty.text (init.map Expr.outline)
  | .expression line e => .expression line e.outline
  | .ifElse line condition s none => .ifElse line condition.outline s.outline none
  | .ifElse line condition s (some t) => .ifElse line condition.outline s.outline (some t.outline)
  | .whileLoop line condition body => .whileLoop line condition.outline body.outline
  | .doLoop line body condition => .doLoop line body.outline condition.outline
  | .forLoop line init condition update body =>
    .forLoop line (Stmt.outlines init) (condition.map Expr.outline) (Stmt.outlines update)
      body.outline
  | .switch line selector groups => .switch line selector.outline (Stmt.groupOutlines groups)
  | .breakJump line => .breakJump line
  | .continueJump line => .continueJump line
  | .tryCatch line ⟨blockLine, body⟩ catches none =>
    .tryCatch line ⟨blockLine, Stmt.outlines body⟩ (Stmt.clauseOutlines catches) none
  | .tryCatch line ⟨blockLine, body⟩ catches (some ⟨lastLine, last⟩) =>
    .tryCatch line ⟨blockLine, Stmt.outlines body⟩ (Stmt.clauseOutlines catches)
      (some ⟨lastLine, Stmt.outlines last⟩)
  | .throw line argument => .throw line argument.outline
  | .empty => .empty
termination_by structural s => s

def Stmt.outlines : List Stmt → List Outline.Stmt
  | [] => []
  | s :: rest => s.outline :: Stmt.outlines rest
termination_by structural body => body

def Stmt.groupOutlines : List (Group Stmt) → List (Outline.Group Outline.Stmt)
  | [] => []
  | ⟨labels, body⟩ :: rest =>
    ⟨labels.map CaseLabel.outline, Stmt.outlines body⟩ :: Stmt.groupOutlines rest
termination_by structural groups => groups

def Stmt.clauseOutlines : List (CatchClause Stmt) → List (CatchClause Outline.Stmt)
  | [] => []
  | ⟨line, exceptionType, param, ⟨blockLine, body⟩⟩ :: rest =>
    ⟨line, exceptionType, param, ⟨blockLine, Stmt.outlines body⟩⟩ :: Stmt.clauseOutlines rest
termination_by structural clauses => clauses

end

/-- A method body without the types of fields and calls, and with the texts of the types of
locals. -/
def Program.outline (p : Program) : List Outline.Stmt :=
  Stmt.outlines p.body

/-! ## Kinds -/

/-- The kind of a constant's node. -/
def Literal.kind : Literal → String
  | .int _ => "LiteralInt"
  | .long _ => "LiteralLong"
  | .double _ => "LiteralDouble"
  | .boolean _ => "LiteralBoolean"
  | .null => "LiteralNull"

/-- The kind of an expression's node. -/
def Expr.kind : Expr → String
  | .literal _ value => value.kind
  | .var .. => "Variable"
  | .field .. => "FieldSelection"
  | .assignment .. => "Assignment"
  | .binary .. => "BinaryExpression"
  | .unary .. => "UnaryExpression"
  | .update _ op _ => op.name
  | .call .. => "MethodCall"
  | .new .. => "NewObject"

/-- The kind of a statement's node. -/
def Stmt.kind : Stmt → String
  | .block _ => "Block"
  | .localDecl .. => "LocalVariableDeclaration"
  | .expression .. => "StatementExpression"
  | .ifElse .. => "IfStatement"
  | .whileLoop .. => "WhileStatement"
  | .doLoop .. => "DoStatement"
  | .forLoop .. => "ForStatement"
  | .switch .. => "SwitchStatement"
  | .breakJump _ => "BreakStatement"
  | .continueJump _ => "ContinueStatement"
  | .tryCatch .. => "TryStatement"
  | .throw .. => "ThrowStatement"
  | .empty => "EmptyStatement"

/-! A kind is found among all of them at the place of its form, so it tells the form. -/

theorem Literal.ctorIdx_eq_of_kind {v v' : Literal} (h : v.kind = v'.kind) :
    v.ctorIdx = v'.ctorIdx := by
  have hplace : ∀ v : Literal,
      ["LiteralInt", "LiteralLong", "LiteralDouble", "LiteralBoolean", "LiteralNull"].idxOf v.kind =
        v.ctorIdx := by
    intro v
    cases v <;> rfl
  rw [← hplace, h, hplace]

theorem Expr.ctorIdx_eq_of_kind {e e' : Expr} (h : e.kind = e'.kind) :
    e.ctorIdx = e'.ctorIdx := by
  have hplace : ∀ e : Expr,
      [("LiteralInt", 0), ("LiteralLong", 0), ("LiteralDouble", 0), ("LiteralBoolean", 0),
        ("LiteralNull", 0), ("Variable", 1), ("FieldSelection", 2), ("Assignment", 3),
        ("BinaryExpression", 4), ("UnaryExpression", 5), ("PreIncrement", 6), ("PreDecrement", 6),
        ("PostIncrement", 6), ("PostDecrement", 6), ("MethodCall", 7), ("NewObject", 8)].lookup
          e.kind = some e.ctorIdx := by
    intro e
    cases e with
    | literal _ value => cases value <;> rfl
    | update _ op _ => cases op <;> rfl
    | _ => rfl
  exact Option.some.inj (by rw [← hplace, h, hplace])

theorem Stmt.ctorIdx_eq_of_kind {s s' : Stmt} (h : s.kind = s'.kind) :
    s.ctorIdx = s'.ctorIdx := by
  have hplace : ∀ s : Stmt,
      ["Block", "LocalVariableDeclaration", "StatementExpression", "IfStatement", "WhileStatement",
        "DoStatement", "ForStatement", "SwitchStatement", "BreakStatement", "ContinueStatement",
        "TryStatement", "ThrowStatement", "EmptyStatement"].idxOf s.kind = s.ctorIdx := by
    intro s
    cases s <;> rfl
  rw [← hplace, h, hplace]

/-! ## Nodes -/

namespace Dump

open Json

/-- The key of a node tells its kind and its line. -/
theorem node_inj {kind kind' : String} {line line' : UInt32} {parts parts' : Json}
    (hkind : ':' ∉ kind.toList)
    (h : (node kind line parts).spelled = (node kind' line' parts').spelled) :
    kind = kind' ∧ line = line' ∧ parts.spelled = parts'.spelled := by
  simp only [node, spelled_object_inj, spelledMembers_cons_inj, and_true] at h
  obtain ⟨hkey, hparts⟩ := h
  have hchars : kind.toList ++ ':' :: Nat.toDigits 10 line.toNat =
      kind'.toList ++ ':' :: Nat.toDigits 10 line'.toNat := by
    simpa [toString] using congrArg String.toList hkey
  have hdigits : ':' ∉ Nat.toDigits 10 line.toNat := fun hmem =>
    absurd (Nat.isDigit_of_mem_toDigits (by decide) (by decide) hmem) (by decide)
  obtain ⟨hkinds, -, hlines⟩ := (List.append_cons_inj_of_notMem hkind hdigits).mp hchars
  refine ⟨String.toList_inj.mp hkinds, UInt32.toNat_inj.mp ?_, hparts⟩
  rw [← Nat.ofDigitChars_ten_toDigits (n := line.toNat), hlines, Nat.ofDigitChars_ten_toDigits]

/-- Nodes of one kind whose parts have names are on the same line, and their parts are spelled
alike. -/
theorem node_parts_inj {kind : String} {line line' : UInt32} {ms ms' : List (String × Json)}
    (hkind : ':' ∉ kind.toList)
    (h : (node kind line (.object ms)).spelled = (node kind line' (.object ms')).spelled) :
    line = line' ∧ spelledMembers ms = spelledMembers ms' := by
  obtain ⟨-, hline, hparts⟩ := node_inj hkind h
  exact ⟨hline, spelled_object_inj.mp hparts⟩

/-- No node is null. -/
theorem node_ne_null (kind : String) (line : UInt32) (parts : Json) :
    (node kind line parts).spelled ≠ .null := by
  simp [node, spelled]

/-! ## Expressions -/

theorem expr_eq_node (e : Expr) : ∃ parts, expr e = node e.kind e.line parts := by
  cases e with
  | literal line value => cases value <;> exact ⟨_, rfl⟩
  | _ => exact ⟨_, rfl⟩

theorem colon_notMem_exprKind (e : Expr) : ':' ∉ e.kind.toList := by
  cases e with
  | literal line value => cases value <;> simp [Expr.kind, Literal.kind]
  | update line op argument => cases op <;> simp [Expr.kind, UpdateOp.name]
  | _ => simp [Expr.kind]

theorem kind_eq_of_expr {e e' : Expr} (h : (expr e).spelled = (expr e').spelled) :
    e.kind = e'.kind := by
  obtain ⟨parts, he⟩ := expr_eq_node e
  obtain ⟨parts', he'⟩ := expr_eq_node e'
  rw [he, he'] at h
  exact (node_inj (colon_notMem_exprKind e) h).1

theorem expr_ne_null (e : Expr) : (expr e).spelled ≠ .null := by
  obtain ⟨parts, he⟩ := expr_eq_node e
  rw [he]
  exact node_ne_null _ _ _

theorem literal_outline {line line' : UInt32} {value value' : Literal} (hf : value.Finite)
    (hf' : value'.Finite) (hkind : value.kind = value'.kind)
    (h : (literal line value).spelled = (literal line' value').spelled) :
    line = line' ∧ value.outline = value'.outline := by
  match value, value', Literal.ctorIdx_eq_of_kind hkind with
  | .int v, .int v', _ =>
      obtain ⟨-, hline, hv⟩ := node_inj (by decide) h
      simp only [spelled, integer.injEq] at hv
      exact ⟨hline, by rw [Int32.toInt_inj.mp hv]⟩
  | .long v, .long v', _ =>
      obtain ⟨-, hline, hv⟩ := node_inj (by decide) h
      simp only [spelled, integer.injEq] at hv
      exact ⟨hline, by rw [Int64.toInt_inj.mp hv]⟩
  | .double v, .double v', _ =>
      obtain ⟨-, hline, hv⟩ := node_inj (by decide) h
      have hfin : v.isFinite = true := hf
      have hfin' : v'.isFinite = true := hf'
      rw [ofDouble, ofDouble, if_pos hfin, if_pos hfin'] at hv
      simp only [spelled, string.injEq] at hv
      exact ⟨hline, by simp only [Literal.outline, hv]⟩
  | .boolean v, .boolean v', _ =>
      obtain ⟨-, hline, hv⟩ := node_inj (by decide) h
      simp only [spelled, bool.injEq] at hv
      exact ⟨hline, by rw [hv]⟩
  | .null, .null, _ =>
      obtain ⟨-, hline, -⟩ := node_inj (by decide) h
      exact ⟨hline, rfl⟩

mutual

theorem expr_outline (e e' : Expr) (hf : e.Finite) (hf' : e'.Finite)
    (h : (expr e).spelled = (expr e').spelled) : e.outline = e'.outline := by
  have hkind := kind_eq_of_expr h
  -- the kinds agree, so that only pairs of one form are left
  match e, e', Expr.ctorIdx_eq_of_kind hkind with
  | .literal line value, .literal line' value', _ =>
      obtain ⟨rfl, hvalue⟩ := literal_outline hf hf' hkind h
      simp only [Expr.outline, hvalue]
  | .var line name, .var line' name', _ =>
      obtain ⟨-, rfl, hname⟩ := node_inj (by decide) h
      obtain rfl := spelled_string_inj.mp hname
      rfl
  | .field line target name _, .field line' target' name' _, _ =>
      obtain ⟨rfl, hparts⟩ := node_parts_inj (by decide) h
      simp only [spelledMembers_cons_inj, spelled_string_inj, true_and, and_true] at hparts
      obtain ⟨rfl, htarget⟩ := hparts
      simp only [Expr.outline, expr_outline target target' hf hf' htarget]
  | .assignment line target value, .assignment line' target' value', _ =>
      obtain ⟨rfl, hparts⟩ := node_parts_inj (by decide) h
      simp only [spelledMembers_cons_inj, true_and, and_true] at hparts
      obtain ⟨htarget, hvalue⟩ := hparts
      simp only [Expr.outline, expr_outline target target' hf.1 hf'.1 htarget,
        expr_outline value value' hf.2 hf'.2 hvalue]
  | .binary line op left right, .binary line' op' left' right', _ =>
      obtain ⟨rfl, hparts⟩ := node_parts_inj (by decide) h
      simp only [spelledMembers_cons_inj, spelled_string_inj, true_and, and_true] at hparts
      obtain ⟨hleft, hop, hright⟩ := hparts
      simp only [Expr.outline, BinaryOp.symbol_injective hop,
        expr_outline left left' hf.1 hf'.1 hleft, expr_outline right right' hf.2 hf'.2 hright]
  | .unary line op argument, .unary line' op' argument', _ =>
      obtain ⟨rfl, hparts⟩ := node_parts_inj (by decide) h
      simp only [spelledMembers_cons_inj, spelled_string_inj, true_and, and_true] at hparts
      obtain ⟨hargument, hop⟩ := hparts
      simp only [Expr.outline, UnaryOp.name_injective hop,
        expr_outline argument argument' hf hf' hargument]
  | .update line op argument, .update line' op' argument', _ =>
      obtain ⟨hop, rfl, hargument⟩ := node_inj (colon_notMem_exprKind (.update line op argument)) h
      simp only [Expr.outline, UpdateOp.name_injective hop,
        expr_outline argument argument' hf hf' hargument]
  | .call line callee arguments _, .call line' callee' arguments' _, _ =>
      obtain ⟨rfl, hparts⟩ := node_parts_inj (by decide) h
      simp only [spelledMembers_cons_inj, spelled_string_inj, true_and, and_true] at hparts
      obtain ⟨harguments, rfl⟩ := hparts
      simp only [Expr.outline,
        exprs_outlines arguments arguments' hf hf' (spelled_array_inj.mp harguments)]
  | .new line className, .new line' className', _ =>
      obtain ⟨-, rfl, hname⟩ := node_inj (by decide) h
      obtain rfl := spelled_string_inj.mp hname
      rfl
termination_by structural e

theorem exprs_outlines (es es' : List Expr) (hf : Expr.AllFinite es) (hf' : Expr.AllFinite es')
    (h : spelledAll (exprs es) = spelledAll (exprs es')) :
    Expr.outlines es = Expr.outlines es' := by
  match es, es' with
  | [], [] => rfl
  | e :: rest, e' :: rest' =>
      obtain ⟨he, hrest⟩ := spelledAll_cons_inj.mp h
      simp only [Expr.outlines, expr_outline e e' hf.1 hf'.1 he,
        exprs_outlines rest rest' hf.2 hf'.2 hrest]
  | [], _ :: _ | _ :: _, [] => simp [exprs, spelledAll] at h
termination_by structural es

end

theorem ofOption_outline (o o' : Option Expr) (hf : ∀ e ∈ o, e.Finite) (hf' : ∀ e ∈ o', e.Finite)
    (h : (ofOption expr o).spelled = (ofOption expr o').spelled) :
    o.map Expr.outline = o'.map Expr.outline := by
  match o, o' with
  | none, none => rfl
  | some e, some e' =>
      simp only [Option.map_some, expr_outline e e' (hf e rfl) (hf' e' rfl) h]
  | none, some e => exact absurd h.symm (expr_ne_null e)
  | some e, none => exact absurd h (expr_ne_null e)

theorem label_outline (l l' : CaseLabel) (hf : l.Finite) (hf' : l'.Finite)
    (h : (label l).spelled = (label l').spelled) : l.outline = l'.outline := by
  match l, l' with
  | .case value, .case value' =>
      simp only [label, spelled_object_inj, spelledMembers_cons_inj, true_and, and_true] at h
      simp only [CaseLabel.outline, expr_outline value value' hf hf' h]
  | .default, .default => rfl
  | .case _, .default | .default, .case _ => simp [label, spelled] at h

theorem labels_outline (ls ls' : List CaseLabel) (hf : ∀ l ∈ ls, l.Finite)
    (hf' : ∀ l ∈ ls', l.Finite) (h : spelledAll (ls.map label) = spelledAll (ls'.map label)) :
    ls.map CaseLabel.outline = ls'.map CaseLabel.outline := by
  induction ls generalizing ls' with
  | nil =>
      cases ls' with
      | nil => rfl
      | cons l' rest' => simp [spelledAll] at h
  | cons l rest ih =>
      cases ls' with
      | nil => simp [spelledAll] at h
      | cons l' rest' =>
          obtain ⟨hl, hrest⟩ := spelledAll_cons_inj.mp h
          obtain ⟨hfl, hfrest⟩ := List.forall_mem_cons.mp hf
          obtain ⟨hfl', hfrest'⟩ := List.forall_mem_cons.mp hf'
          rw [List.map_cons, List.map_cons, label_outline l l' hfl hfl' hl,
            ih rest' hfrest hfrest' hrest]

/-! ## Statements -/

theorem stmt_eq_node (s : Stmt) : ∃ parts, stmt s = node s.kind s.line parts := by
  match s with
  | .block ⟨_, _⟩ | .localDecl .. | .expression .. | .ifElse _ _ _ none | .ifElse _ _ _ (some _)
  | .whileLoop .. | .doLoop .. | .forLoop .. | .switch .. | .breakJump _ | .continueJump _
  | .tryCatch _ ⟨_, _⟩ _ none | .tryCatch _ ⟨_, _⟩ _ (some ⟨_, _⟩) | .throw .. | .empty =>
      exact ⟨_, rfl⟩

theorem colon_notMem_stmtKind (s : Stmt) : ':' ∉ s.kind.toList := by
  cases s <;> simp [Stmt.kind]

theorem kind_eq_of_stmt {s s' : Stmt} (h : (stmt s).spelled = (stmt s').spelled) :
    s.kind = s'.kind := by
  obtain ⟨parts, hs⟩ := stmt_eq_node s
  obtain ⟨parts', hs'⟩ := stmt_eq_node s'
  rw [hs, hs'] at h
  exact (node_inj (colon_notMem_stmtKind s) h).1

theorem stmt_ne_null (s : Stmt) : (stmt s).spelled ≠ .null := by
  obtain ⟨parts, hs⟩ := stmt_eq_node s
  rw [hs]
  exact node_ne_null _ _ _

theorem block_inj {line line' : UInt32} {body body' : List Json}
    (h : (block line body).spelled = (block line' body').spelled) :
    line = line' ∧ spelledAll body = spelledAll body' := by
  obtain ⟨-, hline, hbody⟩ := node_inj (by decide) h
  exact ⟨hline, spelled_array_inj.mp hbody⟩

mutual

theorem stmt_outline (s s' : Stmt) (hf : s.Finite) (hf' : s'.Finite)
    (h : (stmt s).spelled = (stmt s').spelled) : s.outline = s'.outline := by
  -- the forms agree here too, but a part that is absent in one may be there in the other
  match s, s', Stmt.ctorIdx_eq_of_kind (kind_eq_of_stmt h) with
  | .block ⟨line, body⟩, .block ⟨line', body'⟩, _ =>
      obtain ⟨rfl, hbody⟩ := block_inj h
      simp only [Stmt.outline, stmts_outlines body body' hf hf' hbody]
  | .localDecl line name ty init, .localDecl line' name' ty' init', _ =>
      obtain ⟨rfl, hparts⟩ := node_parts_inj (by decide) h
      simp only [spelledMembers_cons_inj, spelled_string_inj, true_and, and_true] at hparts
      obtain ⟨hinit, rfl, hty⟩ := hparts
      simp only [Stmt.outline, hty, ofOption_outline init init' hf hf' hinit]
  | .expression line e, .expression line' e', _ =>
      obtain ⟨-, rfl, he⟩ := node_inj (by decide) h
      simp only [Stmt.outline, expr_outline e e' hf hf' he]
  | .ifElse line condition s none, .ifElse line' condition' s' none, _ =>
      obtain ⟨rfl, hparts⟩ := node_parts_inj (by decide) h
      simp only [spelledMembers_cons_inj, true_and, and_true] at hparts
      obtain ⟨hcondition, hs⟩ := hparts
      simp only [Stmt.outline, expr_outline condition condition' hf.1 hf'.1 hcondition,
        stmt_outline s s' hf.2 hf'.2 hs]
  | .ifElse line condition s (some t), .ifElse line' condition' s' (some t'), _ =>
      obtain ⟨rfl, hparts⟩ := node_parts_inj (by decide) h
      simp only [spelledMembers_cons_inj, true_and, and_true] at hparts
      obtain ⟨hcondition, ht, hs⟩ := hparts
      simp only [Stmt.outline, expr_outline condition condition' hf.1 hf'.1 hcondition,
        stmt_outline s s' hf.2.1 hf'.2.1 hs, stmt_outline t t' hf.2.2 hf'.2.2 ht]
  | .ifElse line condition s none, .ifElse line' condition' s' (some t'), _ =>
      obtain ⟨-, hparts⟩ := node_parts_inj (by decide) h
      simp only [spelledMembers_cons_inj, true_and] at hparts
      exact absurd hparts.2.1.symm (stmt_ne_null t')
  | .ifElse line condition s (some t), .ifElse line' condition' s' none, _ =>
      obtain ⟨-, hparts⟩ := node_parts_inj (by decide) h
      simp only [spelledMembers_cons_inj, true_and] at hparts
      exact absurd hparts.2.1 (stmt_ne_null t)
  | .whileLoop line condition body, .whileLoop line' condition' body', _ =>
      obtain ⟨rfl, hparts⟩ := node_parts_inj (by decide) h
      simp only [spelledMembers_cons_inj, true_and, and_true] at hparts
      obtain ⟨hbody, hcondition⟩ := hparts
      simp only [Stmt.outline, expr_outline condition condition' hf.1 hf'.1 hcondition,
        stmt_outline body body' hf.2 hf'.2 hbody]
  | .doLoop line body condition, .doLoop line' body' condition', _ =>
      obtain ⟨rfl, hparts⟩ := node_parts_inj (by decide) h
      simp only [spelledMembers_cons_inj, true_and, and_true] at hparts
      obtain ⟨hbody, hcondition⟩ := hparts
      simp only [Stmt.outline, expr_outline condition condition' hf.1 hf'.1 hcondition,
        stmt_outline body body' hf.2 hf'.2 hbody]
  | .forLoop line init condition update body, .forLoop line' init' condition' update' body', _ =>
      obtain ⟨rfl, hparts⟩ := node_parts_inj (by decide) h
      simp only [spelledMembers_cons_inj, spelled_array_inj, true_and, and_true] at hparts
      obtain ⟨hbody, hcondition, hinit, hupdate⟩ := hparts
      obtain ⟨hfi, hfc, hfu, hfb⟩ := hf
      obtain ⟨hfi', hfc', hfu', hfb'⟩ := hf'
      simp only [Stmt.outline, stmts_outlines init init' hfi hfi' hinit,
        ofOption_outline condition condition' hfc hfc' hcondition,
        stmts_outlines update update' hfu hfu' hupdate, stmt_outline body body' hfb hfb' hbody]
  | .switch line selector groups, .switch line' selector' groups', _ =>
      obtain ⟨rfl, hparts⟩ := node_parts_inj (by decide) h
      simp only [spelledMembers_cons_inj, spelled_array_inj, true_and, and_true] at hparts
      obtain ⟨hgroups, hselector⟩ := hparts
      simp only [Stmt.outline, expr_outline selector selector' hf.1 hf'.1 hselector,
        groups_outlines groups groups' hf.2 hf'.2 hgroups]
  | .breakJump line, .breakJump line', _ =>
      obtain ⟨-, rfl, -⟩ := node_inj (by decide) h
      rfl
  | .continueJump line, .continueJump line', _ =>
      obtain ⟨-, rfl, -⟩ := node_inj (by decide) h
      rfl
  | .tryCatch line ⟨blockLine, body⟩ catches none,
      .tryCatch line' ⟨blockLine', body'⟩ catches' none, _ =>
      obtain ⟨rfl, hparts⟩ := node_parts_inj (by decide) h
      simp only [spelledMembers_cons_inj, spelled_array_inj, true_and, and_true] at hparts
      obtain ⟨hcatches, hblock⟩ := hparts
      obtain ⟨rfl, hbody⟩ := block_inj hblock
      simp only [Stmt.outline, stmts_outlines body body' hf.1 hf'.1 hbody,
        catches_outlines catches catches' hf.2 hf'.2 hcatches]
  | .tryCatch line ⟨blockLine, body⟩ catches (some ⟨lastLine, last⟩),
      .tryCatch line' ⟨blockLine', body'⟩ catches' (some ⟨lastLine', last'⟩), _ =>
      obtain ⟨rfl, hparts⟩ := node_parts_inj (by decide) h
      simp only [spelledMembers_cons_inj, spelled_array_inj, true_and, and_true] at hparts
      obtain ⟨hcatches, hfinalizer, hblock⟩ := hparts
      obtain ⟨rfl, hbody⟩ := block_inj hblock
      obtain ⟨rfl, hlast⟩ := block_inj hfinalizer
      simp only [Stmt.outline, stmts_outlines body body' hf.1 hf'.1 hbody,
        catches_outlines catches catches' hf.2.1 hf'.2.1 hcatches,
        stmts_outlines last last' hf.2.2 hf'.2.2 hlast]
  | .tryCatch line ⟨blockLine, body⟩ catches none,
      .tryCatch line' ⟨blockLine', body'⟩ catches' (some ⟨lastLine', last'⟩), _ =>
      obtain ⟨-, hparts⟩ := node_parts_inj (by decide) h
      simp only [spelledMembers_cons_inj, true_and] at hparts
      exact absurd hparts.2.1.symm (node_ne_null _ _ _)
  | .tryCatch line ⟨blockLine, body⟩ catches (some ⟨lastLine, last⟩),
      .tryCatch line' ⟨blockLine', body'⟩ catches' none, _ =>
      obtain ⟨-, hparts⟩ := node_parts_inj (by decide) h
      simp only [spelledMembers_cons_inj, true_and] at hparts
      exact absurd hparts.2.1 (node_ne_null _ _ _)
  | .throw line argument, .throw line' argument', _ =>
      obtain ⟨-, rfl, hargument⟩ := node_inj (by decide) h
      simp only [Stmt.outline, expr_outline argument argument' hf hf' hargument]
  | .empty, .empty, _ => rfl
termination_by structural s

theorem stmts_outlines (body body' : List Stmt) (hf : Stmt.AllFinite body)
    (hf' : Stmt.AllFinite body') (h : spelledAll (stmts body) = spelledAll (stmts body')) :
    Stmt.outlines body = Stmt.outlines body' := by
  match body, body' with
  | [], [] => rfl
  | s :: rest, s' :: rest' =>
      obtain ⟨hs, hrest⟩ := spelledAll_cons_inj.mp h
      simp only [Stmt.outlines, stmt_outline s s' hf.1 hf'.1 hs,
        stmts_outlines rest rest' hf.2 hf'.2 hrest]
  | [], _ :: _ | _ :: _, [] => simp [stmts, spelledAll] at h
termination_by structural body

theorem groups_outlines (groups groups' : List (Group Stmt)) (hf : Stmt.GroupsFinite groups)
    (hf' : Stmt.GroupsFinite groups')
    (h : spelledAll (dumpGroups groups) = spelledAll (dumpGroups groups')) :
    Stmt.groupOutlines groups = Stmt.groupOutlines groups' := by
  match groups, groups' with
  | [], [] => rfl
  | ⟨labels, body⟩ :: rest, ⟨labels', body'⟩ :: rest' =>
      obtain ⟨hgroup, hrest⟩ := spelledAll_cons_inj.mp h
      simp only [spelled_object_inj, spelledMembers_cons_inj, spelled_array_inj, true_and, and_true]
        at hgroup
      obtain ⟨hfl, hfb, hfr⟩ := hf
      obtain ⟨hfl', hfb', hfr'⟩ := hf'
      simp only [Stmt.groupOutlines, labels_outline labels labels' hfl hfl' hgroup.1,
        stmts_outlines body body' hfb hfb' hgroup.2, groups_outlines rest rest' hfr hfr' hrest]
  | [], _ :: _ | _ :: _, [] => simp [dumpGroups, spelledAll] at h
termination_by structural groups

theorem catches_outlines (clauses clauses' : List (CatchClause Stmt))
    (hf : Stmt.ClausesFinite clauses) (hf' : Stmt.ClausesFinite clauses')
    (h : spelledAll (dumpCatches clauses) = spelledAll (dumpCatches clauses')) :
    Stmt.clauseOutlines clauses = Stmt.clauseOutlines clauses' := by
  match clauses, clauses' with
  | [], [] => rfl
  | ⟨line, exceptionType, param, ⟨blockLine, body⟩⟩ :: rest,
      ⟨line', exceptionType', param', ⟨blockLine', body'⟩⟩ :: rest' =>
      obtain ⟨hclause, hrest⟩ := spelledAll_cons_inj.mp h
      obtain ⟨rfl, hparts⟩ := node_parts_inj (by decide) hclause
      simp only [spelledMembers_cons_inj, spelled_string_inj, true_and, and_true] at hparts
      obtain ⟨hblock, rfl, rfl⟩ := hparts
      obtain ⟨rfl, hbody⟩ := block_inj hblock
      simp only [Stmt.clauseOutlines, stmts_outlines body body' hf.1 hf'.1 hbody,
        catches_outlines rest rest' hf.2 hf'.2 hrest]
  | [], _ :: _ | _ :: _, [] => simp [dumpCatches, spelledAll] at h
termination_by structural clauses

end

/-! ## Method bodies -/

/-- The dump of a method body whose doubles are finite shows its outline. So of two bodies with
the same dump, in which doubles count as the same if their texts are, one has the lines, names,
operators, constants and parts of the other, in the same order. Only the types of fields and
calls may differ, and the types of locals if they are written alike. -/
theorem program_outline {p q : Program} (hp : p.Finite) (hq : q.Finite)
    (h : (program p).spelled = (program q).spelled) : p.outline = q.outline := by
  simp only [program, spelled_object_inj, spelledMembers_cons_inj, spelled_array_inj, true_and,
    and_true] at h
  exact stmts_outlines p.body q.body hp hq h

/-- A body in which a field, a call and a local have the given types. -/
def typedAs (field call declared : Ty) : Program :=
  ⟨[.localDecl 1 "x" declared (some (.literal 1 (.double (-0.0)))),
    .ifElse 2 (.field 2 (.var 2 "x") "y" field)
      (.expression 3 (.call 3 "f" [.unary 3 .minus (.literal 3 (.int 1)), .literal 3 .null] call))
      none,
    .switch 4 (.update 4 .postIncrement (.var 4 "x"))
      [⟨[.case (.literal 5 (.int 1)), .default], []⟩],
    .tryCatch 6 ⟨6, [.empty]⟩ [⟨7, "E", "e", ⟨7, [.breakJump 8]⟩⟩] (some ⟨9, []⟩)]⟩

/-- A local of the class `int` looks like one of type int, and the types of the field and of the
call are not shown at all. -/
theorem program_outline_typedAs :
    let p := typedAs .boolean .void .int
    let q := typedAs .any (.reference "C") (.reference "int")
    p ≠ q ∧ p.Finite ∧ q.Finite ∧ (program p).spelled = (program q).spelled ∧
      p.outline = q.outline := by
  intro p q
  have hzero : (-0.0 : Float).isFinite = true := by decide
  have hfinite : ∀ field call declared, (typedAs field call declared).Finite := by
    intro field call declared
    simp [typedAs, Program.Finite, Stmt.AllFinite, Stmt.Finite, Stmt.GroupsFinite, hzero,
      Stmt.ClausesFinite, Expr.Finite, Expr.AllFinite, CaseLabel.Finite, Literal.Finite]
  have hsame : (program p).spelled = (program q).spelled := rfl
  refine ⟨?_, hfinite _ _ _, hfinite _ _ _, hsame,
    program_outline (hfinite _ _ _) (hfinite _ _ _) hsame⟩
  simp [p, q, typedAs]

end Dump

end Source

end MethodCompiler
