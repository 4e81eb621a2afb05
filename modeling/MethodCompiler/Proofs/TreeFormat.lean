import MethodCompiler.Source.Json

/-!
# Trees are read back as they were written

A tree that is written as JSON and read back is the same tree, as long as its doubles are
numbers and the brackets are not nested deeper than a reader may go. Nothing that may be
absent is taken for something else: an empty statement is a string and a missing one is null,
and the null literal and the null type are strings as well.

A reader opens a bracket for each step into a tree, and the number it may open goes down by
one. So the depth of the value is what it needs, and the lemmas below are all about a reader
with at least that many brackets left.
-/

namespace MethodCompiler

/-! ## Depth -/

namespace Json

mutual

/-- How deep brackets are nested in a value. -/
def depth : Json → Nat
  | .array items => depthAll items + 1
  | .object members => depthMembers members + 1
  | .null | .bool _ | .integer _ | .double _ | .string _ | .unreadable => 0
termination_by structural j => j

/-- The greatest depth of some values. -/
def depthAll : List Json → Nat
  | [] => 0
  | j :: rest => max j.depth (depthAll rest)
termination_by structural js => js

def depthMembers : List (String × Json) → Nat
  | [] => 0
  | m :: rest => max (depthMember m) (depthMembers rest)
termination_by structural ms => ms

def depthMember : String × Json → Nat
  | (_, j) => j.depth
termination_by structural m => m

end

@[simp]
theorem depth_form (name : String) (payload : Json) :
    (form name payload).depth = payload.depth + 1 := by
  simp [form, depth, depthMembers, depthMember]

end Json

/-! ## Plain values -/

open Json

@[simp]
theorem Source.depth_lineJson (line : UInt32) : (lineJson line).depth = 0 := rfl

@[simp]
theorem Source.uint32?_lineJson (line : UInt32) : uint32? (lineJson line) = some line := by
  have hlt := line.toNat_lt
  have hrange : (0 : Int) ≤ (line.toNat : Int) ∧ (line.toNat : Int) ≤ 4294967295 := by omega
  rw [lineJson, natural, uint32?, integerIn?, if_pos hrange]
  simp

theorem Json.int32?_integer (v : Int32) : int32? (.integer v.toInt) = some v := by
  have hlow := v.le_toInt
  have hhigh := v.toInt_lt
  have hrange : -2147483648 ≤ v.toInt ∧ v.toInt ≤ 2147483647 := by omega
  rw [int32?, integerIn?, if_pos hrange]
  simp

theorem Json.int64?_integer (v : Int64) : int64? (.integer v.toInt) = some v := by
  have hlow := v.le_toInt
  have hhigh := v.toInt_lt
  have hrange : -9223372036854775808 ≤ v.toInt ∧ v.toInt ≤ 9223372036854775807 := by omega
  rw [int64?, integerIn?, if_pos hrange]
  simp

theorem Ty.ofJson?_toJson (ty : Ty) {n : Nat} (h : ty.toJson.depth ≤ n) :
    Ty.ofJson? n ty.toJson = some ty := by
  cases ty with
  | reference name =>
      rw [Ty.toJson, depth_form] at h
      have hn : n ≠ 0 := by omega
      show (if n = 0 then none else some (Ty.reference name)) = _
      rw [if_neg hn]
  | int | long | double | boolean | void | null | any => rfl

theorem BinaryOp.ofName?_name (op : BinaryOp) : BinaryOp.ofName? op.name = some op := by
  cases op <;> rfl

theorem UnaryOp.ofName?_name (op : UnaryOp) : UnaryOp.ofName? op.name = some op := by
  cases op <;> rfl

theorem UpdateOp.ofName?_name (op : UpdateOp) : UpdateOp.ofName? op.name = some op := by
  cases op <;> rfl

namespace Source

/-! ## Doubles that can be written -/

/-- A constant that JSON can write: not an infinity and not NaN. -/
def Literal.Finite : Literal → Prop
  | .double v => v.isFinite
  | .int _ | .long _ | .boolean _ | .null => True

mutual

/-- All constants of an expression can be written. -/
def Expr.Finite : Expr → Prop
  | .literal _ value => value.Finite
  | .var .. | .new .. => True
  | .field _ target _ _ => target.Finite
  | .assignment _ target value => target.Finite ∧ value.Finite
  | .binary _ _ left right => left.Finite ∧ right.Finite
  | .unary _ _ argument | .update _ _ argument => argument.Finite
  | .call _ _ arguments _ => Expr.AllFinite arguments
termination_by structural e => e

def Expr.AllFinite : List Expr → Prop
  | [] => True
  | e :: rest => e.Finite ∧ Expr.AllFinite rest
termination_by structural es => es

end

def CaseLabel.Finite : CaseLabel → Prop
  | .case value => value.Finite
  | .default => True

mutual

/-- All constants of a statement can be written. -/
def Stmt.Finite : Stmt → Prop
  | .block ⟨_, body⟩ => Stmt.AllFinite body
  | .localDecl _ _ _ init => ∀ e ∈ init, e.Finite
  | .expression _ e | .throw _ e => e.Finite
  | .ifElse _ condition consequent none => condition.Finite ∧ consequent.Finite
  | .ifElse _ condition consequent (some alternate) =>
    condition.Finite ∧ consequent.Finite ∧ alternate.Finite
  | .whileLoop _ condition body | .doLoop _ body condition => condition.Finite ∧ body.Finite
  | .forLoop _ init condition update body =>
    Stmt.AllFinite init ∧ (∀ e ∈ condition, e.Finite) ∧ Stmt.AllFinite update ∧ body.Finite
  | .switch _ selector groups => selector.Finite ∧ Stmt.GroupsFinite groups
  | .tryCatch _ ⟨_, body⟩ catches none => Stmt.AllFinite body ∧ Stmt.ClausesFinite catches
  | .tryCatch _ ⟨_, body⟩ catches (some ⟨_, last⟩) =>
    Stmt.AllFinite body ∧ Stmt.ClausesFinite catches ∧ Stmt.AllFinite last
  | .breakJump _ | .continueJump _ | .empty => True
termination_by structural s => s

def Stmt.AllFinite : List Stmt → Prop
  | [] => True
  | s :: rest => s.Finite ∧ Stmt.AllFinite rest
termination_by structural body => body

def Stmt.GroupsFinite : List (Group Stmt) → Prop
  | [] => True
  | ⟨labels, body⟩ :: rest =>
    (∀ l ∈ labels, l.Finite) ∧ Stmt.AllFinite body ∧ Stmt.GroupsFinite rest
termination_by structural groups => groups

def Stmt.ClausesFinite : List (CatchClause Stmt) → Prop
  | [] => True
  | ⟨_, _, _, ⟨_, body⟩⟩ :: rest => Stmt.AllFinite body ∧ Stmt.ClausesFinite rest
termination_by structural clauses => clauses

end

/-! ## Expressions -/

theorem Literal.ofJson?_toJson (value : Literal) (hf : value.Finite) {n : Nat}
    (h : value.toJson.depth ≤ n) : Literal.ofJson? n value.toJson = some value := by
  have hopened : ∀ {name : String} {payload : Json}, (form name payload).depth ≤ n → n ≠ 0 := by
    intro name payload h
    rw [depth_form] at h
    omega
  cases value with
  | int v =>
      show (if n = 0 then none else (int32? (.integer v.toInt)).map Literal.int) = _
      rw [if_neg (hopened h), int32?_integer]
      rfl
  | long v =>
      show (if n = 0 then none else (int64? (.integer v.toInt)).map Literal.long) = _
      rw [if_neg (hopened h), int64?_integer]
      rfl
  | double v =>
      have hv : v.isFinite = true := hf
      show (if n = 0 then none else (double? (ofDouble v)).map Literal.double) = _
      rw [if_neg (hopened h), ofDouble, if_pos hv]
      rfl
  | boolean v =>
      show (if n = 0 then none else some (Literal.boolean v)) = _
      rw [if_neg (hopened h)]
  | null => rfl

theorem Expr.depth_located (line : UInt32) (name : String) (payload : Json) :
    (Expr.toJson.located line name payload).depth = payload.depth + 2 := by
  simp [Expr.toJson.located, depth, depthMembers, depthMember]

mutual

theorem Expr.ofJson?_toJson (e : Expr) (hf : e.Finite) {n : Nat} (h : e.toJson.depth ≤ n) :
    Expr.ofJson? n e.toJson = some e := by
  match e with
  | .literal line value =>
      rw [Expr.toJson, Expr.depth_located] at h
      obtain ⟨n, rfl⟩ : ∃ k, n = k + 2 := ⟨n - 2, by omega⟩
      have hvalue := Literal.ofJson?_toJson value hf (n := n) (by omega)
      calc
        _ = (do
            let line ← uint32? (lineJson line)
            let value ← Literal.ofJson? n value.toJson
            return .literal line value : Option Expr) := by
          delta Expr.ofJson?
          rfl
        _ = _ := by
          rw [uint32?_lineJson, hvalue]
          rfl
  | .var line name =>
      rw [Expr.toJson, Expr.depth_located] at h
      obtain ⟨n, rfl⟩ : ∃ k, n = k + 2 := ⟨n - 2, by omega⟩
      calc
        _ = (do
            let line ← uint32? (lineJson line)
            return .var line name : Option Expr) := by
          delta Expr.ofJson?
          rfl
        _ = _ := by
          rw [uint32?_lineJson]
          rfl
  | .field line target name ty =>
      simp only [Expr.toJson, Expr.depth_located, depth, depthMembers, depthMember] at h
      obtain ⟨n, rfl⟩ : ∃ k, n = k + 3 := ⟨n - 3, by omega⟩
      have htarget := Expr.ofJson?_toJson target hf (n := n) (by omega)
      have hty := Ty.ofJson?_toJson ty (n := n) (by omega)
      calc
        _ = (do
            let line ← uint32? (lineJson line)
            let target ← Expr.ofJson? n target.toJson
            let ty ← Ty.ofJson? n ty.toJson
            return .field line target name ty : Option Expr) := by
          delta Expr.ofJson?
          rfl
        _ = _ := by
          rw [uint32?_lineJson, htarget, hty]
          rfl
  | .assignment line target value =>
      simp only [Expr.toJson, Expr.depth_located, depth, depthMembers, depthMember] at h
      obtain ⟨n, rfl⟩ : ∃ k, n = k + 3 := ⟨n - 3, by omega⟩
      have htarget := Expr.ofJson?_toJson target hf.1 (n := n) (by omega)
      have hvalue := Expr.ofJson?_toJson value hf.2 (n := n) (by omega)
      calc
        _ = (do
            let line ← uint32? (lineJson line)
            let target ← Expr.ofJson? n target.toJson
            let value ← Expr.ofJson? n value.toJson
            return .assignment line target value : Option Expr) := by
          delta Expr.ofJson?
          rfl
        _ = _ := by
          rw [uint32?_lineJson, htarget, hvalue]
          rfl
  | .binary line op left right =>
      simp only [Expr.toJson, Expr.depth_located, depth, depthMembers, depthMember] at h
      obtain ⟨n, rfl⟩ : ∃ k, n = k + 3 := ⟨n - 3, by omega⟩
      have hleft := Expr.ofJson?_toJson left hf.1 (n := n) (by omega)
      have hright := Expr.ofJson?_toJson right hf.2 (n := n) (by omega)
      calc
        _ = (do
            let line ← uint32? (lineJson line)
            let op ← BinaryOp.ofName? op.name
            let left ← Expr.ofJson? n left.toJson
            let right ← Expr.ofJson? n right.toJson
            return .binary line op left right : Option Expr) := by
          delta Expr.ofJson?
          rfl
        _ = _ := by
          rw [uint32?_lineJson, BinaryOp.ofName?_name, hleft, hright]
          rfl
  | .unary line op argument =>
      simp only [Expr.toJson, Expr.depth_located, depth, depthMembers, depthMember] at h
      obtain ⟨n, rfl⟩ : ∃ k, n = k + 3 := ⟨n - 3, by omega⟩
      have hargument := Expr.ofJson?_toJson argument hf (n := n) (by omega)
      calc
        _ = (do
            let line ← uint32? (lineJson line)
            let op ← UnaryOp.ofName? op.name
            let argument ← Expr.ofJson? n argument.toJson
            return .unary line op argument : Option Expr) := by
          delta Expr.ofJson?
          rfl
        _ = _ := by
          rw [uint32?_lineJson, UnaryOp.ofName?_name, hargument]
          rfl
  | .update line op argument =>
      simp only [Expr.toJson, Expr.depth_located, depth, depthMembers, depthMember] at h
      obtain ⟨n, rfl⟩ : ∃ k, n = k + 3 := ⟨n - 3, by omega⟩
      have hargument := Expr.ofJson?_toJson argument hf (n := n) (by omega)
      calc
        _ = (do
            let line ← uint32? (lineJson line)
            let op ← UpdateOp.ofName? op.name
            let argument ← Expr.ofJson? n argument.toJson
            return .update line op argument : Option Expr) := by
          delta Expr.ofJson?
          rfl
        _ = _ := by
          rw [uint32?_lineJson, UpdateOp.ofName?_name, hargument]
          rfl
  | .call line callee arguments returns =>
      simp only [Expr.toJson, Expr.depth_located, depth, depthMembers, depthMember] at h
      obtain ⟨n, rfl⟩ : ∃ k, n = k + 4 := ⟨n - 4, by omega⟩
      have harguments := Expr.mapM_exprsToJson arguments hf (n := n) (by omega)
      have hreturns := Ty.ofJson?_toJson returns (n := n + 1) (by omega)
      calc
        _ = (do
            let line ← uint32? (lineJson line)
            let arguments ← (exprsToJson arguments).mapM (Expr.ofJson? n)
            return .call line callee arguments (← Ty.ofJson? (n + 1) returns.toJson) : Option Expr) := by
          delta Expr.ofJson?
          rfl
        _ = _ := by
          rw [uint32?_lineJson, harguments, hreturns]
          rfl
  | .new line className =>
      simp only [Expr.toJson, Expr.depth_located, depth, depthMembers, depthMember] at h
      obtain ⟨n, rfl⟩ : ∃ k, n = k + 3 := ⟨n - 3, by omega⟩
      calc
        _ = (do
            let line ← uint32? (lineJson line)
            return .new line className : Option Expr) := by
          delta Expr.ofJson?
          rfl
        _ = _ := by
          rw [uint32?_lineJson]
          rfl
termination_by structural e

theorem Expr.mapM_exprsToJson (es : List Expr) (hf : Expr.AllFinite es) {n : Nat}
    (h : depthAll (exprsToJson es) ≤ n) : (exprsToJson es).mapM (Expr.ofJson? n) = some es := by
  match es with
  | [] => rfl
  | e :: rest =>
      simp only [exprsToJson, depthAll] at h
      have he := Expr.ofJson?_toJson e hf.1 (n := n) (by omega)
      have hrest := Expr.mapM_exprsToJson rest hf.2 (n := n) (by omega)
      rw [exprsToJson, List.mapM_cons, he, hrest]
      rfl
termination_by structural es

end

theorem Expr.toJson_ne_null (e : Expr) : e.toJson ≠ .null := by
  intro h
  cases e <;> cases h

theorem CaseLabel.ofJson?_toJson (l : CaseLabel) (hf : l.Finite) {n : Nat}
    (h : l.toJson.depth ≤ n) : CaseLabel.ofJson? n l.toJson = some l := by
  cases l with
  | case value =>
      rw [CaseLabel.toJson, depth_form] at h
      obtain ⟨n, rfl⟩ : ∃ k, n = k + 1 := ⟨n - 1, by omega⟩
      show (Expr.ofJson? n value.toJson).map CaseLabel.case = _
      rw [Expr.ofJson?_toJson value hf (by omega)]
      rfl
  | default => rfl

theorem CaseLabel.mapM_toJson (ls : List CaseLabel) (hf : ∀ l ∈ ls, l.Finite) {n : Nat}
    (h : depthAll (ls.map CaseLabel.toJson) ≤ n) :
    (ls.map CaseLabel.toJson).mapM (CaseLabel.ofJson? n) = some ls := by
  induction ls with
  | nil => rfl
  | cons l rest ih =>
      rw [List.map_cons, depthAll] at h
      obtain ⟨hl, hrest⟩ := List.forall_mem_cons.mp hf
      rw [List.map_cons, List.mapM_cons, CaseLabel.ofJson?_toJson l hl (by omega),
        ih hrest (by omega)]
      rfl

/-- What may be absent is written as null, and nothing else is. -/
theorem optional?_ofOption {α : Type} {write : α → Json} {read : Json → Option α} (o : Option α)
    (hnull : ∀ a, write a ≠ .null) (hread : ∀ a ∈ o, read (write a) = some a) :
    optional? read (some (ofOption write o)) = some o := by
  cases o with
  | none => rfl
  | some a =>
      have hsome : optional? read (some (write a)) = (read (write a)).map some := by
        have hne := hnull a
        revert hne
        cases write a with
        | null => exact fun hne => absurd rfl hne
        | bool _ | integer _ | double _ | string _ | array _ | object _ | unreadable =>
            exact fun _ => rfl
      rw [ofOption, hsome, hread a rfl]
      rfl

theorem optional?_expr (o : Option Expr) (hf : ∀ e ∈ o, e.Finite) {n : Nat}
    (h : (ofOption Expr.toJson o).depth ≤ n) :
    optional? (Expr.ofJson? n) (some (ofOption Expr.toJson o)) = some o := by
  refine optional?_ofOption o Expr.toJson_ne_null fun e he => ?_
  obtain rfl : o = some e := he
  exact Expr.ofJson?_toJson e (hf e rfl) h

/-! ## Statements -/

theorem Stmt.toJson_ne_null (s : Stmt) : s.toJson ≠ .null := by
  match s with
  | .block ⟨_, _⟩ | .localDecl .. | .expression .. | .ifElse _ _ _ none | .ifElse _ _ _ (some _)
  | .whileLoop .. | .doLoop .. | .forLoop .. | .switch .. | .breakJump _ | .continueJump _
  | .tryCatch _ ⟨_, _⟩ _ none | .tryCatch _ ⟨_, _⟩ _ (some ⟨_, _⟩) | .throw .. | .empty =>
      simp [Stmt.toJson, form]

@[simp]
theorem depth_blockJson (line : UInt32) (body : List Json) :
    (blockJson line body).depth = depthAll body + 2 := by
  simp [blockJson, depth, depthMembers, depthMember]

theorem blockOfJson?_blockJson (line : UInt32) {body : List Stmt} {n : Nat}
    (h : stmtsOfJson? (n + 1) (.array (stmtsToJson body)) = some body) :
    blockOfJson? (n + 2) (blockJson line (stmtsToJson body)) = some ⟨line, body⟩ := by
  show (do
    let line ← uint32? (lineJson line)
    let body ← stmtsOfJson? (n + 1) (.array (stmtsToJson body))
    return ⟨line, body⟩ : Option (Block Stmt)) = _
  rw [uint32?_lineJson, h]
  rfl

mutual

theorem Stmt.ofJson?_toJson (s : Stmt) (hf : s.Finite) {n : Nat} (h : s.toJson.depth ≤ n) :
    Stmt.ofJson? n s.toJson = some s := by
  match s with
  | .block ⟨line, body⟩ =>
      rw [Stmt.toJson, depth_form, depth_blockJson] at h
      obtain ⟨n, rfl⟩ : ∃ k, n = k + 3 := ⟨n - 3, by omega⟩
      have hbody := stmtsOfJson?_stmtsToJson body hf (n := n) (by omega)
      show (do
        let line ← uint32? (lineJson line)
        let body ← stmtsOfJson? (n + 1) (.array (stmtsToJson body))
        return .block ⟨line, body⟩ : Option Stmt) = _
      rw [uint32?_lineJson, hbody]
      rfl
  | .localDecl line name ty init =>
      simp only [Stmt.toJson, depth_form, depth, depthMembers, depthMember] at h
      obtain ⟨n, rfl⟩ : ∃ k, n = k + 2 := ⟨n - 2, by omega⟩
      have hty := Ty.ofJson?_toJson ty (n := n) (by omega)
      have hinit := optional?_expr init hf (n := n) (by omega)
      show (do
        let line ← uint32? (lineJson line)
        let ty ← Ty.ofJson? n ty.toJson
        let init ← optional? (Expr.ofJson? n) (some (ofOption Expr.toJson init))
        return .localDecl line name ty init : Option Stmt) = _
      rw [uint32?_lineJson, hty, hinit]
      rfl
  | .expression line e =>
      simp only [Stmt.toJson, depth_form, depth, depthMembers, depthMember] at h
      obtain ⟨n, rfl⟩ : ∃ k, n = k + 2 := ⟨n - 2, by omega⟩
      have he := Expr.ofJson?_toJson e hf (n := n) (by omega)
      show (do
        let line ← uint32? (lineJson line)
        let e ← Expr.ofJson? n e.toJson
        return .expression line e : Option Stmt) = _
      rw [uint32?_lineJson, he]
      rfl
  | .ifElse line condition consequent none =>
      simp only [Stmt.toJson, depth_form, depth, depthMembers, depthMember] at h
      obtain ⟨n, rfl⟩ : ∃ k, n = k + 2 := ⟨n - 2, by omega⟩
      have hcondition := Expr.ofJson?_toJson condition hf.1 (n := n) (by omega)
      have hconsequent := Stmt.ofJson?_toJson consequent hf.2 (n := n) (by omega)
      show (do
        let line ← uint32? (lineJson line)
        let condition ← Expr.ofJson? n condition.toJson
        let consequent ← Stmt.ofJson? n consequent.toJson
        return .ifElse line condition consequent none : Option Stmt) = _
      rw [uint32?_lineJson, hcondition, hconsequent]
      rfl
  | .ifElse line condition consequent (some alternate) =>
      simp only [Stmt.toJson, depth_form, depth, depthMembers, depthMember] at h
      obtain ⟨n, rfl⟩ : ∃ k, n = k + 2 := ⟨n - 2, by omega⟩
      have hcondition := Expr.ofJson?_toJson condition hf.1 (n := n) (by omega)
      have hconsequent := Stmt.ofJson?_toJson consequent hf.2.1 (n := n) (by omega)
      have halternate := Stmt.ofJson?_toJson alternate hf.2.2 (n := n) (by omega)
      have hsome : optional? (Stmt.ofJson? n) (some (ofOption Stmt.toJson (some alternate))) = _ :=
        optional?_ofOption (some alternate) Stmt.toJson_ne_null
          fun s hs => Option.some.inj hs ▸ halternate
      show (do
        let line ← uint32? (lineJson line)
        let condition ← Expr.ofJson? n condition.toJson
        let consequent ← Stmt.ofJson? n consequent.toJson
        let alternate ← optional? (Stmt.ofJson? n) (some (ofOption Stmt.toJson (some alternate)))
        return .ifElse line condition consequent alternate : Option Stmt) = _
      rw [uint32?_lineJson, hcondition, hconsequent, hsome]
      rfl
  | .whileLoop line condition body =>
      simp only [Stmt.toJson, depth_form, depth, depthMembers, depthMember] at h
      obtain ⟨n, rfl⟩ : ∃ k, n = k + 2 := ⟨n - 2, by omega⟩
      have hcondition := Expr.ofJson?_toJson condition hf.1 (n := n) (by omega)
      have hbody := Stmt.ofJson?_toJson body hf.2 (n := n) (by omega)
      show (do
        let line ← uint32? (lineJson line)
        let condition ← Expr.ofJson? n condition.toJson
        let body ← Stmt.ofJson? n body.toJson
        return .whileLoop line condition body : Option Stmt) = _
      rw [uint32?_lineJson, hcondition, hbody]
      rfl
  | .doLoop line body condition =>
      simp only [Stmt.toJson, depth_form, depth, depthMembers, depthMember] at h
      obtain ⟨n, rfl⟩ : ∃ k, n = k + 2 := ⟨n - 2, by omega⟩
      have hcondition := Expr.ofJson?_toJson condition hf.1 (n := n) (by omega)
      have hbody := Stmt.ofJson?_toJson body hf.2 (n := n) (by omega)
      show (do
        let line ← uint32? (lineJson line)
        let body ← Stmt.ofJson? n body.toJson
        let condition ← Expr.ofJson? n condition.toJson
        return .doLoop line body condition : Option Stmt) = _
      rw [uint32?_lineJson, hcondition, hbody]
      rfl
  | .forLoop line init condition update body =>
      simp only [Stmt.toJson, depth_form, depth, depthMembers, depthMember] at h
      obtain ⟨n, rfl⟩ : ∃ k, n = k + 3 := ⟨n - 3, by omega⟩
      obtain ⟨hfi, hfc, hfu, hfb⟩ := hf
      have hinit := stmtsOfJson?_stmtsToJson init hfi (n := n) (by omega)
      have hcondition := optional?_expr condition hfc (n := n + 1) (by omega)
      have hupdate := stmtsOfJson?_stmtsToJson update hfu (n := n) (by omega)
      have hbody := Stmt.ofJson?_toJson body hfb (n := n + 1) (by omega)
      show (do
        let line ← uint32? (lineJson line)
        let init ← stmtsOfJson? (n + 1) (.array (stmtsToJson init))
        let condition ← optional? (Expr.ofJson? (n + 1)) (some (ofOption Expr.toJson condition))
        let update ← stmtsOfJson? (n + 1) (.array (stmtsToJson update))
        let body ← Stmt.ofJson? (n + 1) body.toJson
        return .forLoop line init condition update body : Option Stmt) = _
      rw [uint32?_lineJson, hinit, hcondition, hupdate, hbody]
      rfl
  | .switch line selector groups =>
      simp only [Stmt.toJson, depth_form, depth, depthMembers, depthMember] at h
      obtain ⟨n, rfl⟩ : ∃ k, n = k + 2 := ⟨n - 2, by omega⟩
      have hselector := Expr.ofJson?_toJson selector hf.1 (n := n) (by omega)
      have hgroups := groupsOfJson?_groupsToJson groups hf.2 (n := n) (by rw [depth]; omega)
      show (do
        let line ← uint32? (lineJson line)
        let selector ← Expr.ofJson? n selector.toJson
        let groups ← groupsOfJson? n (.array (groupsToJson groups))
        return .switch line selector groups : Option Stmt) = _
      rw [uint32?_lineJson, hselector, hgroups]
      rfl
  | .breakJump line =>
      simp only [Stmt.toJson, depth_form, depth, depthMembers, depthMember] at h
      obtain ⟨n, rfl⟩ : ∃ k, n = k + 2 := ⟨n - 2, by omega⟩
      show (do
        let line ← uint32? (lineJson line)
        return .breakJump line : Option Stmt) = _
      rw [uint32?_lineJson]
      rfl
  | .continueJump line =>
      simp only [Stmt.toJson, depth_form, depth, depthMembers, depthMember] at h
      obtain ⟨n, rfl⟩ : ∃ k, n = k + 2 := ⟨n - 2, by omega⟩
      show (do
        let line ← uint32? (lineJson line)
        return .continueJump line : Option Stmt) = _
      rw [uint32?_lineJson]
      rfl
  | .tryCatch line ⟨blockLine, body⟩ catches none =>
      simp only [Stmt.toJson, depth_form, depth, depthMembers, depthMember, depth_blockJson] at h
      obtain ⟨n, rfl⟩ : ∃ k, n = k + 4 := ⟨n - 4, by omega⟩
      have hbody := blockOfJson?_blockJson blockLine
        (stmtsOfJson?_stmtsToJson body hf.1 (n := n) (by omega))
      have hcatches := catchesOfJson?_catchesToJson catches hf.2 (n := n + 2) (by rw [depth]; omega)
      show (do
        let line ← uint32? (lineJson line)
        let body ← blockOfJson? (n + 2) (blockJson blockLine (stmtsToJson body))
        let catches ← catchesOfJson? (n + 2) (.array (catchesToJson catches))
        return .tryCatch line body catches none : Option Stmt) = _
      rw [uint32?_lineJson, hbody, hcatches]
      rfl
  | .tryCatch line ⟨blockLine, body⟩ catches (some ⟨lastLine, last⟩) =>
      simp only [Stmt.toJson, depth_form, depth, depthMembers, depthMember, depth_blockJson] at h
      obtain ⟨n, rfl⟩ : ∃ k, n = k + 4 := ⟨n - 4, by omega⟩
      obtain ⟨hfb, hfc, hfl⟩ := hf
      have hbody := blockOfJson?_blockJson blockLine
        (stmtsOfJson?_stmtsToJson body hfb (n := n) (by omega))
      have hcatches := catchesOfJson?_catchesToJson catches hfc (n := n + 2) (by rw [depth]; omega)
      have hlast := blockOfJson?_blockJson lastLine
        (stmtsOfJson?_stmtsToJson last hfl (n := n) (by omega))
      show (do
        let line ← uint32? (lineJson line)
        let body ← blockOfJson? (n + 2) (blockJson blockLine (stmtsToJson body))
        let catches ← catchesOfJson? (n + 2) (.array (catchesToJson catches))
        let last ← (blockOfJson? (n + 2) (blockJson lastLine (stmtsToJson last))).map some
        return .tryCatch line body catches last : Option Stmt) = _
      rw [uint32?_lineJson, hbody, hcatches, hlast]
      rfl
  | .throw line argument =>
      simp only [Stmt.toJson, depth_form, depth, depthMembers, depthMember] at h
      obtain ⟨n, rfl⟩ : ∃ k, n = k + 2 := ⟨n - 2, by omega⟩
      have hargument := Expr.ofJson?_toJson argument hf (n := n) (by omega)
      show (do
        let line ← uint32? (lineJson line)
        let argument ← Expr.ofJson? n argument.toJson
        return .throw line argument : Option Stmt) = _
      rw [uint32?_lineJson, hargument]
      rfl
  | .empty =>
      cases n <;> rfl
termination_by structural s

theorem stmtsOfJson?_stmtsToJson (body : List Stmt) (hf : Stmt.AllFinite body) {n : Nat}
    (h : depthAll (stmtsToJson body) ≤ n) :
    stmtsOfJson? (n + 1) (.array (stmtsToJson body)) = some body := by
  match body with
  | [] => rfl
  | s :: rest =>
      simp only [stmtsToJson, depthAll] at h
      have hs := Stmt.ofJson?_toJson s hf.1 (n := n) (by omega)
      have hrest := stmtsOfJson?_stmtsToJson rest hf.2 (n := n) (by omega)
      show (s.toJson :: stmtsToJson rest).mapM (Stmt.ofJson? n) = _
      have hrest : (stmtsToJson rest).mapM (Stmt.ofJson? n) = some rest := hrest
      rw [List.mapM_cons, hs, hrest]
      rfl
termination_by structural body

theorem groupsOfJson?_groupsToJson (groups : List (Group Stmt)) (hf : Stmt.GroupsFinite groups)
    {n : Nat} (h : (Json.array (groupsToJson groups)).depth ≤ n) :
    groupsOfJson? n (.array (groupsToJson groups)) = some groups := by
  match groups with
  | [] =>
      simp only [groupsToJson, depth, depthAll] at h
      match n with
      | 0 => omega
      | 1 => rfl
      | n + 2 => rfl
  | ⟨labels, body⟩ :: rest =>
      simp only [groupsToJson, depth, depthAll, depthMembers, depthMember] at h
      obtain ⟨n, rfl⟩ : ∃ k, n = k + 3 := ⟨n - 3, by omega⟩
      obtain ⟨hfl, hfb, hfr⟩ := hf
      have hlabels := CaseLabel.mapM_toJson labels hfl (n := n) (by omega)
      have hbody := stmtsOfJson?_stmtsToJson body hfb (n := n) (by omega)
      have hrest := groupsOfJson?_groupsToJson rest hfr (n := n + 3) (by rw [depth]; omega)
      show List.mapM _ (_ :: _) = _
      rw [List.mapM_cons]
      show (do
        let group ← (do
          let labels ← (labels.map CaseLabel.toJson).mapM (CaseLabel.ofJson? n)
          let body ← stmtsOfJson? (n + 1) (.array (stmtsToJson body))
          return ⟨labels, body⟩ : Option (Group Stmt))
        let groups ← groupsOfJson? (n + 3) (.array (groupsToJson rest))
        return group :: groups : Option (List (Group Stmt))) = _
      rw [hlabels, hbody, hrest]
      rfl
termination_by structural groups

theorem catchesOfJson?_catchesToJson (clauses : List (CatchClause Stmt))
    (hf : Stmt.ClausesFinite clauses) {n : Nat}
    (h : (Json.array (catchesToJson clauses)).depth ≤ n) :
    catchesOfJson? n (.array (catchesToJson clauses)) = some clauses := by
  match clauses with
  | [] =>
      simp only [catchesToJson, depth, depthAll] at h
      match n with
      | 0 => omega
      | 1 => rfl
      | n + 2 => rfl
  | ⟨line, exceptionType, param, ⟨blockLine, body⟩⟩ :: rest =>
      simp only [catchesToJson, depth, depthAll, depthMembers, depthMember, depth_blockJson] at h
      obtain ⟨n, rfl⟩ : ∃ k, n = k + 4 := ⟨n - 4, by omega⟩
      have hbody := blockOfJson?_blockJson blockLine
        (stmtsOfJson?_stmtsToJson body hf.1 (n := n) (by omega))
      have hrest := catchesOfJson?_catchesToJson rest hf.2 (n := n + 4) (by rw [depth]; omega)
      show List.mapM _ (_ :: _) = _
      rw [List.mapM_cons]
      show (do
        let clause ← (do
          let line ← uint32? (lineJson line)
          let body ← blockOfJson? (n + 2) (blockJson blockLine (stmtsToJson body))
          return ⟨line, exceptionType, param, body⟩ : Option (CatchClause Stmt))
        let clauses ← catchesOfJson? (n + 4) (.array (catchesToJson rest))
        return clause :: clauses : Option (List (CatchClause Stmt))) = _
      rw [uint32?_lineJson, hbody, hrest]
      rfl
termination_by structural clauses

end

/-! ## Method bodies -/

/-- All constants of a method body can be written. -/
def Program.Finite (p : Program) : Prop :=
  Stmt.AllFinite p.body

/-- A method body whose doubles are finite is read back from the value it is written as, by
every reader that may open enough brackets, and from every text that denotes this value. -/
theorem Program.reads_back (p : Program) (hf : p.Finite) :
    (∀ n, p.toJson.depth ≤ n → Program.ofJson? n p.toJson = some p) ∧
    (∀ text, Json.parse text = some p.toJson → p.toJson.depth ≤ nestingLimit →
      Program.parse text = some p) := by
  have hread : ∀ n, p.toJson.depth ≤ n → Program.ofJson? n p.toJson = some p := by
    intro n h
    simp only [Program.toJson, depth, depthMembers, depthMember] at h
    obtain ⟨n, rfl⟩ : ∃ k, n = k + 2 := ⟨n - 2, by omega⟩
    show (do
      let body ← stmtsOfJson? (n + 1) (.array (stmtsToJson p.body))
      return ⟨body⟩ : Option Program) = _
    rw [stmtsOfJson?_stmtsToJson p.body hf (by omega)]
    rfl
  refine ⟨hread, fun text htext hdepth => ?_⟩
  rw [Program.parse, htext]
  exact hread nestingLimit hdepth

/-- A body with what is easily mistaken for something absent: an empty statement for an
alternative, the null literal and type, empty lists, and a finally body without statements. -/
def lookalikes : Program :=
  ⟨[.ifElse 1 (.literal 1 .null) .empty (some .empty),
    .ifElse 2 (.literal 2 (.boolean false)) (.block ⟨2, []⟩) none,
    .localDecl 3 "Null" .null none,
    .localDecl 4 "Empty" (.reference "Null") (some (.literal 4 .null)),
    .forLoop 5 [] none [] (.switch 6 (.literal 6 (.int (-2147483648))) []),
    .forLoop 7 [.empty] (some (.literal 7 (.double (-0.0)))) [.breakJump 7]
      (.switch 8 (.call 8 "Default" [] .any) [⟨[], []⟩,
        ⟨[.default, .case (.unary 9 .minus (.literal 9 (.long 9223372036854775807)))],
          [.continueJump 4294967295]⟩]),
    .tryCatch 10 ⟨10, []⟩ [] (some ⟨11, []⟩),
    .tryCatch 12 ⟨12, []⟩ [⟨13, "E", "", ⟨13, [.throw 14 (.new 14 "E")]⟩⟩] none]⟩

theorem Program.reads_back_lookalikes :
    lookalikes.Finite ∧ lookalikes.toJson.depth ≤ nestingLimit ∧
      Program.ofJson? nestingLimit lookalikes.toJson = some lookalikes := by
  have hzero : (-0.0 : Float).isFinite = true := by decide
  have hf : lookalikes.Finite := by
    simp [lookalikes, Program.Finite, Stmt.AllFinite, Stmt.Finite, Stmt.GroupsFinite, hzero,
      Stmt.ClausesFinite, Expr.Finite, Expr.AllFinite, CaseLabel.Finite, Literal.Finite]
  have hdepth : lookalikes.toJson.depth ≤ nestingLimit := by decide +kernel
  exact ⟨hf, hdepth, (Program.reads_back lookalikes hf).1 nestingLimit hdepth⟩

end Source

end MethodCompiler
