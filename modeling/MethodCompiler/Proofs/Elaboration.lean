import MethodCompiler.Proofs.SoundTree
import MethodCompiler.Analysis

/-!
# What a method body becomes

Checking without complaints, read as a relation between a body and its tree. For an
expression this is `Gives`, with one lemma per form that takes it apart. For a statement
it is `Becomes`, which also relates how far checking has come before and after: a declaration
is in view from the next statement on, and blocks, clauses and for loops close the scopes
they open. A loop or switch is open while its body is checked, and ends with the marks that
the jumps in its body have left.
-/

namespace MethodCompiler

/-! ## Results without complaints -/

/-- The result, without any complaint. -/
def Reported.Gives (x : Reported α) (a : α) : Prop :=
  x.value = a ∧ x.diagnostics = []

namespace Reported

variable {x : Reported α} {f : α → Reported β} {a a' : α} {b : β}

theorem gives_pure : (pure a : Reported α).Gives a' ↔ a = a' :=
  ⟨fun h => h.1, fun h => ⟨h, rfl⟩⟩

theorem gives_bind : (x >>= f).Gives b ↔ ∃ a, x.Gives a ∧ (f a).Gives b := by
  simp only [Gives, value_bind, diagnostics_bind, List.append_eq_nil_iff]
  constructor
  · rintro ⟨hb, hx, hf⟩
    exact ⟨x.value, ⟨rfl, hx⟩, hb, hf⟩
  · rintro ⟨a, ⟨rfl, hx⟩, hb, hf⟩
    exact ⟨hb, hx, hf⟩

theorem not_gives_report {line : UInt32} {problem : Problem} {u : Unit} :
    ¬ (report line problem).Gives u :=
  fun h => by cases h.2

end Reported

namespace Ty

open Reported (gives_bind gives_pure not_gives_report)

theorem gives_expect {found expected : Ty} {line : UInt32} {ok : Bool}
    (h : (found.expect expected line).Gives ok) : ok = true ∧ found.fits expected := by
  rw [expect] at h
  split at h
  · next hfits => exact ⟨(gives_pure.mp h).symm, hfits⟩
  · obtain ⟨_, hreport, -⟩ := gives_bind.mp h
    exact (not_gives_report hreport).elim

theorem gives_expectOneOf {found : Ty} {options : List Ty} {line : UInt32} {ok : Bool}
    (h : (found.expectOneOf options line).Gives ok) :
    ok = true ∧ ∃ option ∈ options, found.fits option := by
  rw [expectOneOf] at h
  split at h
  · next hfits => exact ⟨(gives_pure.mp h).symm, List.any_eq_true.mp hfits⟩
  · obtain ⟨_, hreport, -⟩ := gives_bind.mp h
    exact (not_gives_report hreport).elim

theorem fits_numeric {ty option : Ty} (hoption : option ∈ numeric) (h : ty.fits option) :
    ty = .any ∨ ty.isNumeric := by
  simp only [numeric, List.mem_cons, List.not_mem_nil, or_false] at hoption
  obtain rfl | rfl | rfl := hoption <;> revert h <;> cases ty <;> simp [fits, isNumeric]

end Ty

/-! ## Expressions -/

namespace Typing

open Annotated (Expr Place)
open Reported (gives_bind gives_pure not_gives_report)

/-- An expression that may stand for an object. -/
def IsObject (e : Expr) : Prop :=
  e.ty.isReference ∨ e.ty = .any

/-- An expression that may be stored into a place of a type, perhaps widened. -/
def Stores (e : Expr) (target : Ty) : Prop :=
  e.ty.fits target ∨ e.ty.widensTo target

theorem not_widensTo_of_fits {source target : Ty} (h : source.fits target) :
    source.widensTo target = false := by
  cases source <;> cases target <;> first | rfl | simp [Ty.fits] at h

theorem gives_coerce {e v : Expr} {target : Ty} {line : UInt32}
    (h : (coerce e target line).Gives v) : Stores e target ∧ v = widen e target := by
  rw [coerce] at h
  split at h
  · next hfits =>
      obtain rfl := gives_pure.mp h
      refine ⟨.inl hfits, ?_⟩
      rw [widen, if_neg (by simp [not_widensTo_of_fits hfits])]
  · next hfits =>
      split at h
      · next hwidens => exact ⟨.inr hwidens, (gives_pure.mp h).symm⟩
      · obtain ⟨_, hexpect, -⟩ := gives_bind.mp h
        exact (hfits (Ty.gives_expect hexpect).2).elim

theorem gives_object {e v : Expr} {line : UInt32} {problem : Problem}
    (h : (do
      if !e.ty.isReference && e.ty != .any then Reported.report line problem
      return e : Reported Expr).Gives v) : IsObject e ∧ v = e := by
  split at h
  · obtain ⟨_, hreport, -⟩ := gives_bind.mp h
    exact (not_gives_report hreport).elim
  · next hobject =>
      refine ⟨?_, (gives_pure.mp h).symm⟩
      by_cases href : e.ty.isReference
      · exact .inl href
      · exact .inr (by simpa [href] using hobject)

section Forms

variable {scope : Scope} {used : Bool} {line : UInt32} {e target value left right : Source.Expr}
  {v : Expr} {name what : String}

theorem gives_var (h : (expr scope used (.var line name)).Gives v) :
    ∃ l, scope.resolve? name = some l ∧ v = .slot l.ty l.slot := by
  rw [expr] at h
  split at h
  · next l hl => exact ⟨l, hl, (gives_pure.mp h).symm⟩
  · obtain ⟨_, hreport, -⟩ := gives_bind.mp h
    exact (not_gives_report hreport).elim

theorem gives_field {ty : Ty} (h : (expr scope used (.field line target name ty)).Gives v) :
    ∃ o, (expr scope true target).Gives o ∧ IsObject o ∧ v = .field ty o name := by
  simp only [expr, gives_bind, gives_pure] at h
  obtain ⟨o, ho, o', hobject, rfl⟩ := h
  obtain ⟨hobject, rfl⟩ := gives_object hobject
  exact ⟨_, ho, hobject, rfl⟩

/-- Only variables and fields are places. -/
theorem gives_place {p : Option (Place Expr × Ty)} (h : (place scope what e).Gives p) :
    ∃ q ty, p = some (q, ty) ∧
      match e with
      | .var _ name => ∃ l, scope.resolve? name = some l ∧ q = .slot l.slot ∧ ty = l.ty
      | .field _ target name ty' =>
        ∃ o, (expr scope true target).Gives o ∧ IsObject o ∧ q = .field o name ∧ ty = ty'
      | _ => False := by
  cases e with
  | var line name =>
      rw [place] at h
      split at h
      · next l hl => exact ⟨_, _, (gives_pure.mp h).symm, l, hl, rfl, rfl⟩
      · obtain ⟨_, hreport, -⟩ := gives_bind.mp h
        exact (not_gives_report hreport).elim
  | field line target name ty =>
      simp only [place, gives_bind, gives_pure] at h
      obtain ⟨o, ho, o', hobject, rfl⟩ := h
      obtain ⟨hobject, rfl⟩ := gives_object hobject
      exact ⟨_, _, rfl, _, ho, hobject, rfl, rfl⟩
  | _ =>
      rw [place] at h
      · obtain ⟨_, hreport, -⟩ := gives_bind.mp h
        exact (not_gives_report hreport).elim
      all_goals simp

theorem gives_assignment (h : (expr scope used (.assignment line target value)).Gives v) :
    ∃ p ty e, (place scope "assignment" target).Gives (some (p, ty)) ∧
      (expr scope true value).Gives e ∧ Stores e ty ∧ v = .assign ty p (widen e ty) used := by
  rw [expr, gives_bind] at h
  obtain ⟨p, hp, h⟩ := h
  obtain ⟨q, ty, rfl, -⟩ := gives_place hp
  simp only [gives_bind, gives_pure] at h
  obtain ⟨e, he, e', hcoerce, rfl⟩ := h
  obtain ⟨hstores, rfl⟩ := gives_coerce hcoerce
  exact ⟨q, ty, e, hp, he, hstores, rfl⟩

theorem gives_binary {op : BinaryOp} (h : (expr scope used (.binary line op left right)).Gives v) :
    ∃ a b, (expr scope true left).Gives a ∧ (expr scope true right).Gives b ∧
      (binary line op a b).Gives v := by
  simp only [expr, gives_bind] at h
  obtain ⟨a, ha, b, hb, h⟩ := h
  exact ⟨a, b, ha, hb, h⟩

theorem gives_unary {op : UnaryOp} (h : (expr scope used (.unary line op e)).Gives v) :
    ∃ a, (expr scope true e).Gives a ∧ (∃ option ∈ unaryOperands op, a.ty.fits option) ∧
      v = .unary a.ty op a := by
  simp only [expr, unary, gives_bind, gives_pure] at h
  obtain ⟨a, ha, ok, hok, rfl⟩ := h
  obtain ⟨rfl, hfits⟩ := Ty.gives_expectOneOf hok
  exact ⟨a, ha, hfits, rfl⟩

theorem gives_update {op : UpdateOp} (h : (expr scope used (.update line op e)).Gives v) :
    ∃ p ty, (place scope op.symbol e).Gives (some (p, ty)) ∧ ty.isIncrementable ∧
      v = .increment ty op p used := by
  rw [expr] at h
  split at h
  · rw [gives_bind] at h
    obtain ⟨p, hp, h⟩ := h
    obtain ⟨q, ty, rfl, -⟩ := gives_place hp
    refine ⟨q, ty, hp, ?_⟩
    rw [increment] at h
    split at h
    · next hty => exact ⟨hty, (gives_pure.mp h).symm⟩
    · next hty =>
        -- A type that fits a numeric one can be stepped.
        obtain ⟨_, hexpect, -⟩ := gives_bind.mp h
        obtain ⟨-, option, hoption, hfits⟩ := Ty.gives_expectOneOf hexpect
        obtain rfl | hnumeric := Ty.fits_numeric hoption hfits
        · exact (hty rfl).elim
        · revert hty hnumeric
          cases ty <;> simp [Ty.isIncrementable, Ty.isNumeric]
  · obtain ⟨_, hreport, -⟩ := gives_bind.mp h
    exact (not_gives_report hreport).elim

theorem gives_call {args : List Source.Expr} {returns : Ty}
    (h : (expr scope used (.call line name args returns)).Gives v) :
    ∃ vs, (exprs scope args).Gives vs ∧ v = .call returns name vs := by
  simp only [expr, gives_bind, gives_pure] at h
  obtain ⟨vs, hvs, rfl⟩ := h
  exact ⟨vs, hvs, rfl⟩

theorem gives_exprs_nil {vs : List Expr} (h : (exprs scope []).Gives vs) : vs = [] :=
  (gives_pure.mp h).symm

theorem gives_exprs_cons {rest : List Source.Expr} {vs : List Expr}
    (h : (exprs scope (e :: rest)).Gives vs) :
    ∃ v vs', (expr scope true e).Gives v ∧ (exprs scope rest).Gives vs' ∧ vs = v :: vs' := by
  simp only [exprs, gives_bind, gives_pure] at h
  obtain ⟨v, hv, vs', hvs', rfl⟩ := h
  exact ⟨v, vs', hv, hvs', rfl⟩

end Forms

/-- Operands of a numeric operation are brought to the wider of their types. -/
theorem gives_numeric {line : UInt32} {op : BinaryOp} {left right v : Expr}
    (h : (binary.numeric line op left right).Gives v) :
    ((left.ty = .any ∨ right.ty = .any) ∧ v = .binary .any op left right) ∨
    (left.ty.isNumeric ∧ right.ty.isNumeric ∧
      v = .binary (if op.isArithmetic then left.ty.wider right.ty else .boolean) op
        (widen left (left.ty.wider right.ty)) (widen right (left.ty.wider right.ty))) := by
  simp only [binary.numeric, gives_bind] at h
  obtain ⟨ok, hl, ok', hr, h⟩ := h
  obtain ⟨rfl, a, ha, hl⟩ := Ty.gives_expectOneOf hl
  obtain ⟨rfl, b, hb, hr⟩ := Ty.gives_expectOneOf hr
  split at h
  · next hany => exact .inl ⟨by simpa using hany, (gives_pure.mp h).symm⟩
  · next hany =>
      simp only [Bool.not_true, Bool.false_or, Bool.or_eq_true, decide_eq_true_eq, not_or] at hany
      exact .inr ⟨(Ty.fits_numeric ha hl).resolve_left hany.1,
        (Ty.fits_numeric hb hr).resolve_left hany.2, (gives_pure.mp h).symm⟩

/-- What an operator wants of its operands. Only the logical ones take booleans, and only
equality takes what is not a number. -/
theorem gives_binary_cases {line : UInt32} {op : BinaryOp} {left right v : Expr}
    (h : (binary line op left right).Gives v) :
    ((op = .logicalAnd ∨ op = .logicalOr) ∧ left.ty.fits .boolean ∧ right.ty.fits .boolean ∧
      v = .binary .boolean op left right) ∨
    (op ≠ .logicalAnd ∧ op ≠ .logicalOr ∧
      (((op = .equal ∨ op = .notEqual) ∧ left.ty.fits right.ty ∧ left.ty ≠ .void ∧
          right.ty ≠ .void ∧ ¬ (left.ty.isNumeric ∧ right.ty.isNumeric) ∧
          v = .binary .boolean op left right) ∨
        (binary.numeric line op left right).Gives v)) := by
  have hlogical : ∀ op, (do
      let leftOk ← left.ty.expect .boolean line
      let rightOk ← right.ty.expect .boolean line
      return Expr.binary (if leftOk && rightOk then .boolean else .any) op left right :
        Reported Expr).Gives v →
      left.ty.fits .boolean ∧ right.ty.fits .boolean ∧ v = .binary .boolean op left right := by
    intro op h
    simp only [gives_bind, gives_pure] at h
    obtain ⟨_, hleft, _, hright, rfl⟩ := h
    obtain ⟨rfl, hl⟩ := Ty.gives_expect hleft
    obtain ⟨rfl, hr⟩ := Ty.gives_expect hright
    exact ⟨hl, hr, rfl⟩
  have hequal : ∀ op, (if left.ty.isNumeric && right.ty.isNumeric then
        binary.numeric line op left right
      else if left.ty.fits right.ty && left.ty != .void && right.ty != .void then
        pure (.binary .boolean op left right)
      else do
        Reported.report line (.incomparable left.ty right.ty)
        return .binary .any op left right : Reported Expr).Gives v →
      (left.ty.fits right.ty ∧ left.ty ≠ .void ∧ right.ty ≠ .void ∧
          ¬ (left.ty.isNumeric ∧ right.ty.isNumeric) ∧ v = .binary .boolean op left right) ∨
        (binary.numeric line op left right).Gives v := by
    intro op h
    split at h
    · exact .inr h
    · next hnumeric =>
        split at h
        · next hfits =>
            simp only [Bool.and_eq_true, bne_iff_ne] at hfits hnumeric
            exact .inl ⟨hfits.1.1, hfits.1.2, hfits.2, hnumeric, (gives_pure.mp h).symm⟩
        · obtain ⟨_, hreport, -⟩ := gives_bind.mp h
          exact (not_gives_report hreport).elim
  cases op with
  | logicalAnd => exact .inl ⟨.inl rfl, hlogical _ h⟩
  | logicalOr => exact .inl ⟨.inr rfl, hlogical _ h⟩
  | equal => exact .inr ⟨nofun, nofun, (hequal _ h).imp_left fun h => ⟨.inl rfl, h⟩⟩
  | notEqual => exact .inr ⟨nofun, nofun, (hequal _ h).imp_left fun h => ⟨.inr rfl, h⟩⟩
  | _ => exact .inr ⟨nofun, nofun, .inr h⟩

theorem gives_condition {scope : Scope} {line : UInt32} {e : Source.Expr} {v : Expr}
    (h : (condition scope line e).Gives v) :
    (expr scope true e).Gives v ∧ v.ty.fits .boolean := by
  simp only [condition, gives_bind, gives_pure] at h
  obtain ⟨v', hv, _, hexpect, rfl⟩ := h
  exact ⟨hv, (Ty.gives_expect hexpect).2⟩

end Typing

/-! ## Statements -/

namespace Progress

/-- A scope is opened. -/
def enter (s : Progress) : Progress :=
  { s with scope := s.scope.enter }

/-- The innermost scope is closed. -/
def leave (s : Progress) : Progress :=
  { s with scope := s.scope.leave.2 }

/-- A loop or switch is opened. -/
def opening (s : Progress) (f : Frame) : Progress :=
  { s with enclosing := ⟨f :: s.enclosing.frames, s.enclosing.nextId + 1⟩ }

/-- A loop or switch is still open. -/
def inside (s : Progress) (f : Frame) : Progress :=
  { s with enclosing := { s.enclosing with frames := f :: s.enclosing.frames } }

end Progress

namespace Analysis

open Annotated (Stmt Expr Catch)

/-- A condition and its typed form. -/
def Tests (sc : Scope) (e : Source.Expr) (v : Expr) : Prop :=
  (Typing.expr sc true e).Gives v ∧ v.ty.fits .boolean

section

variable (policy : ContinuePolicy)

mutual

/-- A statement and its tree, and how far checking has come before and after it. -/
def Becomes (s : Source.Stmt) (st : Progress) (t : Stmt) (st' : Progress) : Prop :=
  match s with
  | .block ⟨_, body⟩ => ∃ ts st₁, AllBecome body st.enter ts st₁ ∧ t = .block ts ∧ st' = st₁.leave
  | .localDecl _ name ty none => ty ≠ .void ∧ t = .empty ∧
      ∃ slot sc, st.scope.declare name ty = .ok (slot, sc) ∧ st' = { st with scope := sc }
  | .localDecl _ name ty (some e) =>
    ty ≠ .void ∧ ∃ v slot sc, (Typing.expr st.scope true e).Gives v ∧ Typing.Stores v ty ∧
      st.scope.declare name ty = .ok (slot, sc) ∧ t = .localInit slot (Typing.widen v ty) ∧
      st' = { st with scope := sc }
  | .expression _ e => ∃ v, (Typing.expr st.scope false e).Gives v ∧
      t = .expression v (Typing.leavesValue v) ∧ st' = st
  | .ifElse _ c s none =>
    ∃ v t₁, Tests st.scope c v ∧ Becomes s st t₁ st' ∧ t = .ifElse v t₁ none
  | .ifElse _ c s (some s') => ∃ v t₁ st₁ t₂, Tests st.scope c v ∧ Becomes s st t₁ st₁ ∧
      Becomes s' st₁ t₂ st' ∧ t = .ifElse v t₁ (some t₂)
  | .whileLoop _ c body => ∃ j v t₁, Tests st.scope c v ∧ j.id = st.enclosing.nextId ∧
      Becomes body (st.opening (.loop ⟨j.id, .whileLoop, false, false⟩)) t₁
        (st'.inside (j.frame .whileLoop)) ∧
      t = .whileLoop j v t₁
  | .doLoop _ body c => ∃ j v t₁, j.id = st.enclosing.nextId ∧
      Becomes body (st.opening (.loop ⟨j.id, .doLoop, false, false⟩)) t₁
        (st'.inside (j.frame .doLoop)) ∧
      Tests st'.scope c v ∧ t = .doLoop j t₁ v
  | .forLoop _ init c update body => ∃ j v ts₁ st₁ ts₂ st₂ t₁ st₃,
      AllBecome init st.enter ts₁ st₁ ∧ Option.Rel (Tests st₁.scope) c v ∧
      AllBecome update st₁ ts₂ st₂ ∧ j.id = st₂.enclosing.nextId ∧
      Becomes body (st₂.opening (.loop ⟨j.id, .forLoop, false, false⟩)) t₁
        (Progress.inside st₃ (j.frame .forLoop)) ∧
      t = .forLoop j ts₁ v ts₂ t₁ ∧ st' = st₃.leave
  | .switch line selector groups => ∃ id hasBreak v labels bodies d,
      (Typing.expr st.scope true selector).Gives v ∧ v.ty.fits .int ∧
      (switchLabels st.scope line {} 0 groups).Gives labels ∧ id = st.enclosing.nextId ∧
      GroupsBecome groups (st.opening (.switch ⟨id, false⟩)) bodies
        (st'.inside (.switch ⟨id, hasBreak⟩)) ∧
      Dispatch.ofCases labels.cases labels.defaultGroup = .ok d ∧ t = .switch id hasBreak v bodies d
  | .breakJump _ => ∃ id enclosing, st.enclosing.resolveBreak = .ok (id, enclosing) ∧
      t = .breakJump id ∧ st' = { st with enclosing := enclosing }
  | .continueJump _ => ∃ target enclosing, st.enclosing.resolveContinue = .ok (target, enclosing) ∧
      st' = { st with enclosing := enclosing } ∧
      match target with
      | .loop id => t = .continueJump id
      | .switch _ => policy = .ignore ∧ t = .empty
  | .tryCatch _ ⟨_, body⟩ catches none => ∃ ts st₁ cs, AllBecome body st.enter ts st₁ ∧
      ClausesBecome catches st₁.leave cs st' ∧ t = .tryCatch ts cs none
  | .tryCatch _ ⟨_, body⟩ catches (some ⟨_, last⟩) => ∃ ts st₁ cs st₂ slot sc ts' st₃,
      AllBecome body st.enter ts st₁ ∧ ClausesBecome catches st₁.leave cs st₂ ∧
      st₂.scope.enter.reserve = .ok (slot, sc) ∧ AllBecome last { st₂ with scope := sc } ts' st₃ ∧
      t = .tryCatch ts cs (some ⟨slot, ts'⟩) ∧ st' = st₃.leave
  | .throw _ e => ∃ v, (Typing.expr st.scope true e).Gives v ∧ Typing.IsObject v ∧ t = .throw v ∧
      st' = st
  | .empty => t = .empty ∧ st' = st
termination_by structural s

/-- Statements one after another. -/
def AllBecome (body : List Source.Stmt) (st : Progress) (ts : List Stmt) (st' : Progress) : Prop :=
  match body with
  | [] => ts = [] ∧ st' = st
  | s :: rest => ∃ t st₁ ts', Becomes s st t st₁ ∧ AllBecome rest st₁ ts' st' ∧ ts = t :: ts'
termination_by structural body

/-- The groups of a switch, each in a scope of its own. -/
def GroupsBecome (groups : List (Source.Group Source.Stmt)) (st : Progress)
    (bodies : List (List Stmt)) (st' : Progress) : Prop :=
  match groups with
  | [] => bodies = [] ∧ st' = st
  | ⟨_, body⟩ :: rest => ∃ ts st₁ bodies', AllBecome body st.enter ts st₁ ∧
      GroupsBecome rest st₁.leave bodies' st' ∧ bodies = ts :: bodies'
termination_by structural groups

/-- The clauses of a try, each in a scope that starts with the caught object. -/
def ClausesBecome (clauses : List (Source.CatchClause Source.Stmt)) (st : Progress)
    (cs : List (Catch Stmt)) (st' : Progress) : Prop :=
  match clauses with
  | [] => cs = [] ∧ st' = st
  | ⟨_, exceptionType, param, ⟨_, body⟩⟩ :: rest => ∃ slot sc ts st₁ cs',
      st.scope.enter.declare param (.reference exceptionType) = .ok (slot, sc) ∧
      AllBecome body { st with scope := sc } ts st₁ ∧ ClausesBecome rest st₁.leave cs' st' ∧
      cs = ⟨exceptionType, slot, ts⟩ :: cs'
termination_by structural clauses

end

end

variable {policy : ContinuePolicy}

/-- A continue becomes a jump or nothing. -/
theorem Becomes.continueJump {line : UInt32} {st st' : Progress} {t : Stmt}
    (h : Becomes policy (.continueJump line) st t st') :
    ((∃ id, t = .continueJump id) ∨ t = .empty) ∧
      ∃ enclosing, st' = { st with enclosing := enclosing } := by
  obtain ⟨target, enclosing, -, rfl, ht⟩ := h
  refine ⟨?_, enclosing, rfl⟩
  cases target with
  | loop id => exact .inl ⟨id, ht⟩
  | switch id => exact .inr ht.2

theorem GroupsBecome.length {groups : List (Source.Group Source.Stmt)} {st st' : Progress}
    {bodies : List (List Stmt)} (h : GroupsBecome policy groups st bodies st') :
    bodies.length = groups.length := by
  induction groups generalizing st bodies with
  | nil =>
      obtain ⟨rfl, -⟩ := h
      rfl
  | cons group rest ih =>
      obtain ⟨ts, st₁, bodies', -, hbodies', rfl⟩ := h
      rw [List.length_cons, List.length_cons, ih hbodies']

end Analysis

end MethodCompiler
