import Mathlib.Data.List.Nodup
import MethodCompiler.Scope

/-!
# Scopes as a stack of frames

Open scopes are one list of locals with depths and a counter that is wound back. What they
stand for is a stack of frames: each holds the named locals and the anonymous slots of one
scope, a new slot is numbered by how many are live, and closing a scope drops its frame.

`Frames.Shown` relates the two. One request keeps it and is answered alike by both
(`alike_ask`), and so is any number of requests that closes no scope it has not opened
(`shown_replay`). What can be said of the frames is then said of the scopes.
-/

namespace MethodCompiler.Scope

/-! ## Requests -/

/-- What may be asked of open scopes. -/
inductive Request where
  | enter
  | leave
  | reserve
  | declare (name : String) (ty : Ty)
  | resolve (name : String)
deriving DecidableEq, Repr

/-- What is answered. -/
inductive Answer where
  | done
  | defect (defect : Defect)
  | slot (slot : Nat)
  | refused (why : SlotRefusal)
  | found (found : Option Local)
deriving DecidableEq, Repr

/-- The answers to requests made one after another, and what is left in the end. -/
def replay {S : Type} (ask : S → Request → Answer × S) (s : S) : List Request → List Answer × S
  | [] => ([], s)
  | r :: rest =>
    let (answer, s) := ask s r
    let (answers, s) := replay ask s rest
    (answer :: answers, s)

theorem replay_append {S : Type} (ask : S → Request → Answer × S) (s : S)
    (requests more : List Request) :
    (replay ask s (requests ++ more)).2 = (replay ask (replay ask s requests).2 more).2 := by
  induction requests generalizing s with
  | nil => rfl
  | cons r rest ih => exact ih (ask s r).2

/-- How many scopes are open after a request, unless it closes one that was not opened. -/
def Request.nest (depth : Nat) : Request → Option Nat
  | .enter => some (depth + 1)
  | .leave => if depth = 0 then none else some (depth - 1)
  | .reserve | .declare .. | .resolve _ => some depth

/-- How many scopes are open after requests, unless one was closed that was not opened. -/
def nesting (depth : Nat) : List Request → Option Nat
  | [] => some depth
  | r :: rest => (r.nest depth).bind fun depth => nesting depth rest

theorem nesting_append (depth : Nat) (requests more : List Request) :
    nesting depth (requests ++ more) =
      (nesting depth requests).bind fun depth => nesting depth more := by
  induction requests generalizing depth with
  | nil => rfl
  | cons r rest ih =>
      rw [List.cons_append, nesting, nesting, Option.bind_assoc]
      exact congrArg _ (funext ih)

/-- More scopes may be open around requests. -/
theorem nesting_add {depth depth' : Nat} {requests : List Request}
    (h : nesting depth requests = some depth') (more : Nat) :
    nesting (depth + more) requests = some (depth' + more) := by
  induction requests generalizing depth with
  | nil => exact congrArg (some <| · + more) (Option.some.inj h)
  | cons r rest ih =>
      obtain ⟨middle, hr, hrest⟩ := Option.bind_eq_some_iff.mp h
      refine Option.bind_eq_some_iff.mpr ⟨middle + more, ?_, ih hrest⟩
      cases r <;> simp only [Request.nest] at hr ⊢ <;> grind

/-- A scope that is opened, whatever is done in it, and closed again. -/
def segment (inside : List Request) : List Request :=
  .enter :: inside ++ [.leave]

theorem nesting_segment {inside : List Request} (h : nesting 0 inside = some 0) (depth : Nat) :
    nesting depth (segment inside) = some depth := by
  have hinside := nesting_add h (depth + 1)
  rw [Nat.zero_add] at hinside
  calc nesting depth (segment inside)
    _ = nesting (depth + 1) (inside ++ [.leave]) := rfl
    _ = nesting (depth + 1) [.leave] := by rw [nesting_append, hinside, Option.bind_some]
    _ = some depth := rfl

/-- A slot is handed out. A refusal changes nothing. -/
def settle (s : Scope) : Except SlotRefusal (Nat × Scope) → Answer × Scope
  | .ok (slot, s') => (.slot slot, s')
  | .error why => (.refused why, s)

/-- Answers a request. -/
def ask (s : Scope) : Request → Answer × Scope
  | .enter => (.done, s.enter)
  | .leave =>
    match s.leave with
    | (.ok (), s') => (.done, s')
    | (.error defect, s') => (.defect defect, s')
  | .reserve => s.settle s.reserve
  | .declare name ty => s.settle (s.declare name ty)
  | .resolve name => (.found (s.resolve? name), s)

/-- The scopes of a method body after requests. -/
def after (limit : Nat) (requests : List Request) : Scope :=
  (replay ask { limit := limit } requests).2

theorem ask_refused {s : Scope} {r : Request} {why : SlotRefusal}
    (h : (s.ask r).1 = .refused why) : (s.ask r).2 = s := by
  have hsettle : ∀ result, (s.settle result).1 = .refused why → (s.settle result).2 = s := by
    rintro (refusal | ⟨slot, s'⟩) h
    · rfl
    · cases h
  cases r with
  | enter => cases h
  | resolve name => rfl
  | leave =>
      rw [ask] at h
      split at h <;> cases h
  | reserve => exact hsettle _ h
  | declare name ty => exact hsettle _ h

/-- One slot more is in use, for a local or for none. -/
def occupied (s : Scope) (l : Option Local) : Scope :=
  { s with
    locals := l.toList ++ s.locals
    nextSlot := s.nextSlot + 1
    maxSlots := max s.maxSlots (s.nextSlot + 1) }

/-! ## Frames -/

/-- What a slot is for. -/
inductive Entry where
  | named (name : String) (slot : Nat) (ty : Ty)
  | anonymous (slot : Nat)
deriving DecidableEq, Repr

namespace Entry

def slot : Entry → Nat
  | named _ slot _ | anonymous slot => slot

def name? : Entry → Option String
  | named name _ _ => some name
  | anonymous _ => none

/-- The local that an entry stands for, in a frame with `depth` frames around it. -/
def local? (depth : Nat) : Entry → Option Local
  | named name slot ty => some ⟨name, depth, slot, ty⟩
  | anonymous _ => none

end Entry

/-- A stack of frames, of which the innermost is always there. The newest entry of a frame
comes first. -/
structure Frames where
  inner : List Entry := []
  outer : List (List Entry) := []
  limit : Nat
deriving DecidableEq, Repr

namespace Frames

/-- All entries, the newest first. -/
def entries (f : Frames) : List Entry :=
  f.inner ++ f.outer.flatten

/-- The live slots. -/
def live (f : Frames) : List Nat :=
  f.entries.map Entry.slot

/-- The innermost binding of a name. -/
def lookup (name : String) : List (List Entry) → Option Local
  | [] => none
  | frame :: outer =>
    ((frame.find? fun e => e.name? = some name).bind (Entry.local? outer.length)).or
      (lookup name outer)

/-- The next slot goes to an entry of the innermost frame. -/
def occupy (f : Frames) (entry : Nat → Entry) : Answer × Frames :=
  if f.live.length = f.limit then (.refused .exhausted, f)
  else (.slot f.live.length, { f with inner := entry f.live.length :: f.inner })

/-- Answers a request. The last frame is never closed. -/
def ask (f : Frames) : Request → Answer × Frames
  | .enter => (.done, { f with inner := [], outer := f.inner :: f.outer })
  | .leave =>
    match f.outer with
    | [] => (.defect (.overflow .subtract), f)
    | frame :: outer => (.done, { f with inner := frame, outer := outer })
  | .reserve => f.occupy .anonymous
  | .declare name ty =>
    if some name ∈ f.inner.map Entry.name? then (.refused (.duplicate name), f)
    else f.occupy fun slot => .named name slot ty
  | .resolve name => (.found (lookup name (f.inner :: f.outer)), f)

/-- The frames of a method body after requests. -/
def after (limit : Nat) (requests : List Request) : Frames :=
  (replay ask { limit := limit } requests).2

/-- The locals of frames, as scopes list them. -/
def locals : List (List Entry) → List Local
  | [] => []
  | frame :: outer => frame.filterMap (Entry.local? outer.length) ++ locals outer

/-- How many slots were live when each of the frames was covered by the next one. -/
def marks : List (List Entry) → List Nat
  | [] => []
  | frame :: outer => (frame ++ outer.flatten).length :: marks outer

/-- Scopes that stand for these frames. -/
structure Shown (f : Frames) (s : Scope) : Prop where
  limit : s.limit = f.limit
  depth : s.depth = f.outer.length
  locals : s.locals = Frames.locals (f.inner :: f.outer)
  next : s.nextSlot = f.live.length
  saved : s.saved = marks f.outer
  peak : f.live.length ≤ s.maxSlots
  /-- slots are numbered from the oldest -/
  numbered : f.live.reverse = List.range f.live.length
  bounded : f.live.length ≤ f.limit

/-! ## Locals of frames -/

theorem depth_of_mem_frame {frame : List Entry} {depth : Nat} {l : Local}
    (h : l ∈ frame.filterMap (Entry.local? depth)) : l.depth = depth := by
  obtain ⟨e, -, he⟩ := List.mem_filterMap.mp h
  cases e with
  | named name slot ty =>
      obtain rfl := Option.some.inj he
      rfl
  | anonymous slot => cases he

theorem depth_of_mem_locals {frames : List (List Entry)} {l : Local} (h : l ∈ locals frames) :
    l.depth < frames.length := by
  induction frames with
  | nil => cases h
  | cons frame outer ih =>
      rw [locals, List.mem_append] at h
      rw [List.length_cons]
      obtain h | h := h
      · rw [depth_of_mem_frame h]
        exact Nat.lt_succ_self _
      · exact Nat.lt_succ_of_lt (ih h)

/-- The innermost scope's locals are those of the innermost frame, and the rest are older. -/
theorem split_locals (frame : List Entry) (outer : List (List Entry)) :
    (locals (frame :: outer)).takeWhile (fun l => l.depth = outer.length) =
        frame.filterMap (Entry.local? outer.length) ∧
      (locals (frame :: outer)).dropWhile (fun l => l.depth = outer.length) = locals outer := by
  have hframe : ∀ l ∈ frame.filterMap (Entry.local? outer.length),
      decide (l.depth = outer.length) = true :=
    fun l hl => decide_eq_true (depth_of_mem_frame hl)
  have houter : ∀ l ∈ locals outer, ¬ decide (l.depth = outer.length) = true := by
    intro l hl
    have := depth_of_mem_locals hl
    rw [decide_eq_true_iff]
    omega
  rw [locals, List.takeWhile_append_of_pos hframe, List.dropWhile_append_of_pos hframe]
  cases hlocals : locals outer with
  | nil => simp
  | cons l rest =>
      have hl := houter l (by rw [hlocals]; exact List.mem_cons_self)
      rw [List.takeWhile_cons, List.dropWhile_cons, if_neg hl, if_neg hl, List.append_nil]
      exact ⟨rfl, rfl⟩

/-- What is found among the locals is what is found frame by frame. -/
theorem find?_locals (name : String) (frames : List (List Entry)) :
    (locals frames).find? (fun l => l.name = name) = lookup name frames := by
  induction frames with
  | nil => rfl
  | cons frame outer ih =>
      have hframe : (frame.filterMap (Entry.local? outer.length)).find? (fun l => l.name = name) =
          (frame.find? fun e => e.name? = some name).bind (Entry.local? outer.length) := by
        induction frame with
        | nil => rfl
        | cons e frame ih =>
            cases e with
            | anonymous slot =>
                rw [List.filterMap_cons_none rfl, ih, List.find?_cons_of_neg (by simp [Entry.name?])]
            | named n slot ty =>
                have hlocal : Entry.local? outer.length (.named n slot ty) =
                    some ⟨n, outer.length, slot, ty⟩ := rfl
                rw [List.filterMap_cons_some hlocal]
                by_cases hn : n = name
                · rw [List.find?_cons_of_pos (by simp [hn]),
                    List.find?_cons_of_pos (by simp [Entry.name?, hn])]
                  rfl
                · rw [List.find?_cons_of_neg (by simp [hn]), ih,
                    List.find?_cons_of_neg (by simp [Entry.name?, hn])]
      rw [locals, List.find?_append, hframe, ih, lookup]

/-- The innermost frame has a name if one of its locals does. -/
theorem any_local_iff (name : String) (depth : Nat) (frame : List Entry) :
    (frame.filterMap (Entry.local? depth)).any (fun l => l.name = name) = true ↔
      some name ∈ frame.map Entry.name? := by
  rw [List.any_eq_true, List.mem_map]
  constructor
  · rintro ⟨l, hl, hname⟩
    obtain ⟨e, he, hlocal⟩ := List.mem_filterMap.mp hl
    cases e with
    | anonymous slot => cases hlocal
    | named n slot ty =>
        obtain rfl := Option.some.inj hlocal
        exact ⟨_, he, congrArg some (of_decide_eq_true hname)⟩
  · rintro ⟨e, he, hname⟩
    cases e with
    | anonymous slot => cases hname
    | named n slot ty =>
        obtain rfl := Option.some.inj hname
        exact ⟨_, List.mem_filterMap.mpr ⟨_, he, rfl⟩, decide_eq_true rfl⟩

/-! ## One request -/

namespace Shown

variable {f : Frames} {s : Scope}

theorem initially (limit : Nat) : Shown { limit := limit } { limit := limit } where
  limit := rfl
  depth := rfl
  locals := rfl
  next := rfl
  saved := rfl
  peak := Nat.le_refl 0
  numbered := rfl
  bounded := Nat.zero_le limit

theorem resolve (h : Shown f s) (name : String) :
    s.resolve? name = lookup name (f.inner :: f.outer) := by
  rw [Scope.resolve?, h.locals, find?_locals]

theorem declares (h : Shown f s) (name : String) :
    s.declares name = true ↔ some name ∈ f.inner.map Entry.name? := by
  rw [Scope.declares, h.locals, h.depth, (split_locals f.inner f.outer).1, any_local_iff]

theorem nodup (h : Shown f s) : f.live.Nodup := by
  rw [← List.nodup_reverse, h.numbered]
  exact List.nodup_range

theorem lt_limit (h : Shown f s) : ∀ slot ∈ f.live, slot < f.limit := by
  intro slot hslot
  rw [← List.mem_reverse, h.numbered, List.mem_range] at hslot
  exact Nat.lt_of_lt_of_le hslot h.bounded

theorem enter (h : Shown f s) :
    Shown { f with inner := [], outer := f.inner :: f.outer } s.enter where
  limit := h.limit
  depth := by rw [Scope.enter, h.depth, List.length_cons]
  locals := h.locals
  next := h.next
  saved := by
    rw [marks, ← h.saved, Scope.enter, h.next, live, List.length_map, entries]
  peak := h.peak
  numbered := h.numbered
  bounded := h.bounded

/-- The frame below takes the place of the innermost one. -/
theorem leave {frame : List Entry} {outer : List (List Entry)} (h : Shown f s)
    (houter : f.outer = frame :: outer) :
    Shown { f with inner := frame, outer := outer } s.leave.2 := by
  have hlive : f.live = f.inner.map Entry.slot ++ (frame ++ outer.flatten).map Entry.slot := by
    rw [live, entries, houter, List.flatten_cons, List.map_append]
  have hle : ((frame ++ outer.flatten).map Entry.slot).length ≤ f.live.length := by
    rw [hlive, List.length_append]
    omega
  have hsaved := h.saved
  rw [houter, marks] at hsaved
  constructor
  case limit => exact h.limit
  case depth => rw [Scope.leave, h.depth, houter, List.length_cons, Nat.add_sub_cancel]
  case locals =>
    rw [Scope.leave, h.depth, h.locals, (split_locals f.inner f.outer).2, houter]
  case next =>
    rw [Scope.leave, hsaved, live, List.length_map]
    rfl
  case saved => rw [Scope.leave, hsaved, List.drop_succ_cons, List.drop_zero]
  case peak => exact Nat.le_trans hle h.peak
  case numbered =>
    -- the older slots are the first ones of the range
    have hrange := congrArg (List.take ((frame ++ outer.flatten).map Entry.slot).length) h.numbered
    rw [List.take_range, Nat.min_eq_left hle, hlive, List.reverse_append,
      List.take_left' (List.length_reverse ..)] at hrange
    exact hrange
  case bounded => exact Nat.le_trans hle h.bounded

/-- The next slot goes to an entry of the innermost frame. -/
theorem occupied {entry : Nat → Entry} (h : Shown f s) (hroom : f.live.length ≠ f.limit)
    (hslot : ∀ slot, (entry slot).slot = slot) :
    Shown { f with inner := entry f.live.length :: f.inner }
      (s.occupied ((entry f.live.length).local? s.depth)) := by
  have hlive : live { f with inner := entry f.live.length :: f.inner } =
      f.live.length :: f.live := by
    rw [live, entries, List.cons_append, List.map_cons, hslot]
    rfl
  constructor
  case limit => exact h.limit
  case depth => exact h.depth
  case locals =>
    simp only [Scope.occupied, h.locals, h.depth, Frames.locals, List.filterMap_cons]
    cases (entry f.live.length).local? f.outer.length <;> rfl
  case next => rw [hlive, List.length_cons, Scope.occupied, h.next]
  case saved => exact h.saved
  case peak =>
    rw [hlive, List.length_cons, Scope.occupied, h.next]
    exact Nat.le_max_right ..
  case numbered =>
    rw [hlive, List.reverse_cons, h.numbered, List.length_cons, List.range_succ]
  case bounded =>
    rw [hlive, List.length_cons]
    exact Nat.lt_of_le_of_ne h.bounded hroom

theorem reserve (h : Shown f s) :
    s.reserve = if f.live.length = f.limit then .error .exhausted
      else .ok (f.live.length, s.occupied none) := by
  have hbounded := h.bounded
  rw [Scope.reserve, Scope.occupied, h.limit, h.next]
  by_cases hfull : f.live.length = f.limit
  · rw [if_pos hfull, if_pos (by omega)]
  · rw [if_neg hfull, if_neg (by omega)]
    rfl

theorem declare (h : Shown f s) (name : String) (ty : Ty) :
    s.declare name ty =
      if some name ∈ f.inner.map Entry.name? then .error (.duplicate name)
      else if f.live.length = f.limit then .error .exhausted
      else .ok (f.live.length, s.occupied (some ⟨name, s.depth, f.live.length, ty⟩)) := by
  rw [Scope.declare, h.reserve]
  by_cases hdeclared : some name ∈ f.inner.map Entry.name?
  · rw [if_pos hdeclared, if_pos ((h.declares name).mpr hdeclared)]
  · rw [if_neg hdeclared, if_neg (mt (h.declares name).mp hdeclared)]
    by_cases hfull : f.live.length = f.limit
    · rw [if_pos hfull, if_pos hfull]
      rfl
    · rw [if_neg hfull, if_neg hfull]
      rfl

theorem reserve_exhausted_iff (h : Shown f s) :
    s.reserve = .error .exhausted ↔ f.live.length = f.limit := by
  rw [h.reserve]
  split <;> simp [*]

theorem declare_duplicate_iff (h : Shown f s) (name : String) (ty : Ty) :
    s.declare name ty = .error (.duplicate name) ↔ some name ∈ f.inner.map Entry.name? := by
  rw [h.declare]
  split
  · simp [*]
  · split <;> simp [*]

theorem declare_exhausted_iff (h : Shown f s) {name : String} (ty : Ty)
    (hnew : some name ∉ f.inner.map Entry.name?) :
    s.declare name ty = .error .exhausted ↔ f.live.length = f.limit := by
  rw [h.declare, if_neg hnew]
  split <;> simp [*]

end Shown

/-- Scopes `s` and the frames they stand for have answered alike and still belong together. -/
structure Alike (s : Scope) (x : Answer × Scope) (y : Answer × Frames) : Prop where
  answer : x.1 = y.1
  shown : Shown y.2 x.2
  peak : x.2.maxSlots = max s.maxSlots y.2.live.length

section Steps

variable {f : Frames} {s : Scope} {r : Request} {depth : Nat}

theorem Alike.unchanged (h : Shown f s) (answer : Answer) : Alike s (answer, s) (answer, f) :=
  ⟨rfl, h, (Nat.max_eq_left h.peak).symm⟩

theorem Alike.occupy (entry : Nat → Entry) (h : Shown f s)
    (hslot : ∀ slot, (entry slot).slot = slot) :
    Alike s (s.settle (if f.live.length = f.limit then .error .exhausted
      else .ok (f.live.length, s.occupied ((entry f.live.length).local? s.depth))))
      (f.occupy entry) := by
  rw [Frames.occupy]
  by_cases hfull : f.live.length = f.limit
  · rw [if_pos hfull, if_pos hfull]
    exact .unchanged h _
  · rw [if_neg hfull, if_neg hfull]
    have hshown := h.occupied hfull hslot
    refine ⟨rfl, hshown, ?_⟩
    rw [← hshown.next]
    rfl

/-- A request that closes no scope too many is answered alike. -/
theorem alike_ask (h : Shown f s) (hr : r.nest f.outer.length = some depth) :
    Alike s (s.ask r) (f.ask r) := by
  cases r with
  | enter => exact ⟨rfl, h.enter, (Nat.max_eq_left h.peak).symm⟩
  | resolve name =>
      rw [Scope.ask, h.resolve]
      exact .unchanged h _
  | leave =>
      cases houter : f.outer with
      | nil => simp [Request.nest, houter] at hr
      | cons frame outer =>
          have hdepth : s.depth ≠ 0 := by simp [h.depth, houter]
          have hshown := h.leave houter
          have hask : f.ask .leave = (.done, { f with inner := frame, outer := outer }) := by
            rw [Frames.ask, houter]
          have hask' : s.ask .leave = (.done, s.leave.2) := by
            rw [Scope.ask, Scope.leave, if_neg hdepth]
          rw [hask, hask']
          exact ⟨rfl, hshown, (Nat.max_eq_left hshown.peak).symm⟩
  | reserve =>
      rw [Scope.ask, h.reserve]
      exact Alike.occupy .anonymous h fun _ => rfl
  | declare name ty =>
      rw [Scope.ask, h.declare, Frames.ask]
      by_cases hdeclared : some name ∈ f.inner.map Entry.name?
      · rw [if_pos hdeclared, if_pos hdeclared]
        exact .unchanged h _
      · rw [if_neg hdeclared, if_neg hdeclared]
        exact Alike.occupy (.named name · ty) h fun _ => rfl

/-- What stands below the frames that are open stays there. -/
theorem outer_ask {above below : List (List Entry)} (houter : f.outer = above ++ below)
    (hr : r.nest above.length = some depth) :
    ∃ above', above'.length = depth ∧ (f.ask r).2.outer = above' ++ below := by
  have hoccupy : ∀ entry, (f.occupy entry).2.outer = above ++ below := by
    intro entry
    rw [Frames.occupy]
    split <;> exact houter
  cases r with
  | enter =>
      obtain rfl := Option.some.inj hr
      exact ⟨f.inner :: above, rfl, congrArg (f.inner :: ·) houter⟩
  | leave =>
      cases above with
      | nil => simp [Request.nest] at hr
      | cons frame above =>
          refine ⟨above, by simpa [Request.nest] using hr, ?_⟩
          rw [Frames.ask, houter, List.cons_append]
  | resolve name => exact ⟨above, Option.some.inj hr, houter⟩
  | reserve => exact ⟨above, Option.some.inj hr, hoccupy _⟩
  | declare name ty =>
      refine ⟨above, Option.some.inj hr, ?_⟩
      rw [Frames.ask]
      split
      · exact houter
      · exact hoccupy _

theorem length_outer_ask (hr : r.nest f.outer.length = some depth) :
    (f.ask r).2.outer.length = depth := by
  obtain ⟨above, hlength, houter⟩ := outer_ask (List.append_nil f.outer).symm hr
  rw [houter, List.append_nil, hlength]

theorem limit_ask (f : Frames) (r : Request) : (f.ask r).2.limit = f.limit := by
  have hoccupy : ∀ entry, (f.occupy entry).2.limit = f.limit := by
    intro entry
    rw [Frames.occupy]
    split <;> rfl
  cases r with
  | enter | resolve name => rfl
  | leave =>
      rw [Frames.ask]
      split <;> rfl
  | reserve => exact hoccupy _
  | declare name ty =>
      rw [Frames.ask]
      split
      · rfl
      · exact hoccupy _

end Steps

/-! ## Any number of requests -/

section Runs

variable {f : Frames} {s : Scope} {requests : List Request} {depth : Nat}

theorem outer_replay (above below : List (List Entry)) (houter : f.outer = above ++ below)
    (h : nesting above.length requests = some depth) :
    ∃ above', above'.length = depth ∧ (replay ask f requests).2.outer = above' ++ below := by
  induction requests generalizing f above with
  | nil => exact ⟨above, Option.some.inj h, houter⟩
  | cons r rest ih =>
      obtain ⟨middle, hr, hrest⟩ := Option.bind_eq_some_iff.mp h
      obtain ⟨above', rfl, houter'⟩ := outer_ask houter hr
      exact ih above' houter' hrest

theorem limit_replay (f : Frames) (requests : List Request) :
    (replay ask f requests).2.limit = f.limit := by
  induction requests generalizing f with
  | nil => rfl
  | cons r rest ih => exact (ih _).trans (limit_ask f r)

/-- Requests that close no scope too many are answered alike. -/
theorem shown_replay (h : Shown f s) (hnesting : nesting f.outer.length requests = some depth) :
    (replay Scope.ask s requests).1 = (replay ask f requests).1 ∧
      Shown (replay ask f requests).2 (replay Scope.ask s requests).2 := by
  induction requests generalizing f s with
  | nil => exact ⟨rfl, h⟩
  | cons r rest ih =>
      obtain ⟨middle, hr, hrest⟩ := Option.bind_eq_some_iff.mp hnesting
      have hask := alike_ask h hr
      obtain ⟨hanswers, hshown⟩ := ih hask.shown (by rw [length_outer_ask hr]; exact hrest)
      exact ⟨congrArg₂ List.cons hask.answer hanswers, hshown⟩

/-- The peak is reached at some time and never passed. -/
theorem peak_replay (h : Shown f s) (hnesting : nesting f.outer.length requests = some depth) :
    s.maxSlots ≤ (replay Scope.ask s requests).2.maxSlots ∧
      (∀ before, before <+: requests →
        (replay ask f before).2.live.length ≤ (replay Scope.ask s requests).2.maxSlots) ∧
      ((replay Scope.ask s requests).2.maxSlots = s.maxSlots ∨ ∃ before, before <+: requests ∧
        (replay ask f before).2.live.length = (replay Scope.ask s requests).2.maxSlots) := by
  induction requests generalizing f s with
  | nil =>
      refine ⟨Nat.le_refl _, ?_, .inl rfl⟩
      intro before hbefore
      obtain rfl := List.prefix_nil.mp hbefore
      exact h.peak
  | cons r rest ih =>
      obtain ⟨middle, hr, hrest⟩ := Option.bind_eq_some_iff.mp hnesting
      have hask := alike_ask h hr
      have hpeak := hask.peak
      obtain ⟨hle, hall, hreached⟩ := ih hask.shown (by rw [length_outer_ask hr]; exact hrest)
      have hfirst : s.maxSlots ≤ (replay Scope.ask s (r :: rest)).2.maxSlots :=
        Nat.le_trans (by rw [hpeak]; exact Nat.le_max_left ..) hle
      refine ⟨hfirst, ?_, ?_⟩
      · intro before hbefore
        obtain rfl | ⟨after, rfl, hafter⟩ := List.prefix_cons_iff.mp hbefore
        · exact Nat.le_trans h.peak hfirst
        · exact hall after hafter
      · obtain hsame | ⟨before, hbefore, heq⟩ := hreached
        · -- the peak is the one before the request or the one it makes
          obtain hmax | hmax := Nat.le_total (f.ask r).2.live.length s.maxSlots
          · rw [Nat.max_eq_left hmax] at hpeak
            exact .inl (hsame.trans hpeak)
          · rw [Nat.max_eq_right hmax] at hpeak
            refine .inr ⟨[r], ?_, hpeak.symm.trans hsame.symm⟩
            exact List.prefix_cons_iff.mpr (.inr ⟨[], rfl, List.nil_prefix⟩)
        · exact .inr ⟨r :: before, List.prefix_cons_iff.mpr (.inr ⟨before, rfl, hbefore⟩), heq⟩

/-- A scope that is opened and closed again leaves the frames as they were. -/
theorem replay_segment (f : Frames) {inside : List Request} (h : nesting 0 inside = some 0) :
    (replay ask f (segment inside)).2 = f := by
  let opened : Frames := { f with inner := [], outer := f.inner :: f.outer }
  obtain ⟨above, hlength, houter⟩ := outer_replay (f := opened) [] (f.inner :: f.outer) rfl h
  obtain rfl := List.eq_nil_of_length_eq_zero hlength
  have hlimit := limit_replay opened inside
  calc (replay ask f (segment inside)).2
    _ = (replay ask opened (inside ++ [.leave])).2 := rfl
    _ = ((replay ask opened inside).2.ask .leave).2 := by rw [replay_append]; rfl
    _ = f := by
        rw [Frames.ask, houter, List.nil_append]
        exact congrArg (Frames.mk f.inner f.outer) hlimit

end Runs

end Frames

open Frames in
/-- Scopes refine a stack of frames, whatever is asked of them as long as no scope is closed that
was not opened. A name is found in the innermost frame that has it, a local is a duplicate
if its name is in the innermost frame, and slots are exhausted if as many are live as there may
be. Live slots are different slots below the limit. A scope that is opened and closed again
leaves no trace but in the peak, which is the largest number of slots that were live at once. -/
theorem refines_frames (limit : Nat) (requests : List Request) {depth : Nat}
    (h : nesting 0 requests = some depth) :
    (replay Scope.ask { limit := limit } requests).1 =
        (replay Frames.ask { limit := limit } requests).1 ∧
      let s := Scope.after limit requests
      let f := Frames.after limit requests
      (∀ name, s.resolve? name = lookup name (f.inner :: f.outer)) ∧
      (∀ name ty, s.declare name ty = .error (.duplicate name) ↔
        some name ∈ f.inner.map Entry.name?) ∧
      (s.reserve = .error .exhausted ↔ f.live.length = limit) ∧
      (∀ name ty, some name ∉ f.inner.map Entry.name? →
        (s.declare name ty = .error .exhausted ↔ f.live.length = limit)) ∧
      (∀ r why, (s.ask r).1 = .refused why → (s.ask r).2 = s) ∧
      f.live.Nodup ∧ (∀ slot ∈ f.live, slot < limit) ∧
      (∀ inside, nesting 0 inside = some 0 →
        let s' := Scope.after limit (requests ++ segment inside)
        (∀ name, s'.resolve? name = s.resolve? name) ∧ (s'.ask .reserve).1 = (s.ask .reserve).1) ∧
      (∀ before, before <+: requests → (Frames.after limit before).live.length ≤ s.maxSlots) ∧
      ∃ before, before <+: requests ∧ (Frames.after limit before).live.length = s.maxSlots := by
  obtain ⟨hanswers, hshown⟩ := shown_replay (.initially limit) h
  obtain ⟨-, hpeaks, hreached⟩ := peak_replay (.initially limit) h
  have hshown : Shown (Frames.after limit requests) (Scope.after limit requests) := hshown
  have hlimit : (Frames.after limit requests).limit = limit := limit_replay ..
  refine ⟨hanswers, hshown.resolve, hshown.declare_duplicate_iff, ?_, fun name ty hnew => ?_,
    fun r why => Scope.ask_refused, hshown.nodup, fun slot hslot => ?_, fun inside hinside => ?_,
    hpeaks, ?_⟩
  · rw [hshown.reserve_exhausted_iff, hlimit]
  · rw [hshown.declare_exhausted_iff ty hnew, hlimit]
  · have hlt := hshown.lt_limit slot hslot
    rwa [hlimit] at hlt
  · have hshown' := (shown_replay hshown (nesting_segment hinside _)).2
    rw [replay_segment _ hinside, Scope.after, ← replay_append] at hshown'
    refine ⟨fun name => (hshown'.resolve name).trans (hshown.resolve name).symm, ?_⟩
    exact (alike_ask hshown' rfl).answer.trans (alike_ask hshown rfl).answer.symm
  · obtain hzero | hreached := hreached
    · exact ⟨[], List.nil_prefix, hzero.symm⟩
    · exact hreached

/-- In an inner scope a name is shadowed, declared twice and refused for want of slots. Afterwards
it is what it was, and its scope's slots are handed out again. -/
theorem refines_frames_shadowing :
    (replay Scope.ask { limit := 3 } [.declare "x" .int, .enter, .declare "x" .long,
        .declare "x" .int, .reserve, .declare "y" .int, .resolve "x", .leave, .resolve "x",
        .reserve]).1 =
      [.slot 0, .done, .slot 1, .refused (.duplicate "x"), .slot 2, .refused .exhausted,
        .found (some ⟨"x", 1, 1, .long⟩), .done, .found (some ⟨"x", 0, 0, .int⟩), .slot 1] ∧
      ((Scope.after 3 ([.declare "x" .int] ++
        segment [.declare "x" .long, .enter, .reserve, .leave])).ask .reserve).1 = .slot 1 := by
  have hrun := refines_frames 3 [.declare "x" .int, .enter, .declare "x" .long,
    .declare "x" .int, .reserve, .declare "y" .int, .resolve "x", .leave, .resolve "x", .reserve] rfl
  obtain ⟨-, -, -, -, -, -, -, -, hsegment, -⟩ := refines_frames 3 [.declare "x" .int] rfl
  refine ⟨hrun.1.trans (by decide), ?_⟩
  exact (hsegment [.declare "x" .long, .enter, .reserve, .leave] rfl).2.trans (by decide)

end MethodCompiler.Scope
