import Mathlib.Data.List.Count
import Mathlib.Data.List.Sigma
import Mathlib.Data.List.Sort
import MethodCompiler.Code.Listing

/-!
# Where a listing shows labels

The labels of a listing are sorted by position once and then merged with the instructions. The
merge never looks for a label that it has passed: at each instruction it takes pending labels as
long as they stand at this very position. That is enough because nothing before that position is
ever pending, and this is what the induction over the instructions carries (`body_eq`).

The main statement says how the lines follow each other, for labels at any positions, and that
each label that has a position has exactly one line. Lines are those that are written out one
after the other; an operand may be a name with a line break in it, and the line of its
instruction is then broken as well. If there is no such name, the printed text has these lines
and no others.
-/

namespace MethodCompiler

/-! ## Lines and their kinds -/

namespace Listing

theorem toList_labelLine (l : Label) :
    (labelLine l).toList = 'L' :: Nat.toDigits 10 l ++ [':'] := by
  simp [labelLine, labelText, toString]

/-- The line of a label tells its number. -/
theorem labelLine_injective : Function.Injective labelLine := by
  intro l l' h
  have hchars := congrArg String.toList h
  rw [toList_labelLine, toList_labelLine] at hchars
  have hdigits : Nat.toDigits 10 l = Nat.toDigits 10 l' := by simpa using hchars
  rw [← Nat.ofDigitChars_ten_toDigits (n := l), hdigits, Nat.ofDigitChars_ten_toDigits]

/-- There is no blank in the line of a label, and there is one in each other line. -/
theorem blank_notMem_labelLine (l : Label) : ' ' ∉ (labelLine l).toList := by
  rw [toList_labelLine]
  intro h
  have hdigit : ' ' ∈ Nat.toDigits 10 l := by simpa using h
  exact absurd (Nat.isDigit_of_mem_toDigits (by decide) (by decide) hdigit) (by decide)

theorem ne_labelLine {line : String} (h : ' ' ∈ line.toList) (l : Label) : line ≠ labelLine l := by
  rintro rfl
  exact blank_notMem_labelLine l h

theorem instructionLine_ne_labelLine (pc : Nat) (i : Instruction) (l : Label) :
    instructionLine pc i ≠ labelLine l :=
  ne_labelLine (by simp [instructionLine, toString]) l

theorem header_ne_labelLine (n : Nat) (l : Label) : s!"max_locals {n}" ≠ labelLine l :=
  ne_labelLine (by simp [toString]) l

theorem labelLine_notMem_table (handlers : List Handler) (l : Label) :
    labelLine l ∉ table handlers := by
  rw [table]
  split
  · exact List.not_mem_nil
  · rw [List.mem_cons, List.mem_map]
    rintro (h | ⟨row, -, h⟩)
    · exact ne_labelLine (by decide) l h.symm
    · exact ne_labelLine (by simp [handlerLine, toString]) l h

/-- Among the lines of instructions and pending labels, a label has as many lines as it is
pending. -/
theorem count_body (l : Label) (pc : Nat) (pending : List (Nat × Label)) (is : List Instruction) :
    (body pc pending is).count (labelLine l) = (pending.map (·.2)).count l := by
  have hlines : ∀ ps : List (Nat × Label),
      (ps.map fun p => labelLine p.2).count (labelLine l) = (ps.map (·.2)).count l := by
    intro ps
    rw [← List.count_map_of_injective _ _ labelLine_injective, List.map_map]
    rfl
  induction is generalizing pc pending with
  | nil => exact hlines pending
  | cons i rest ih =>
      rw [body, List.count_append, hlines,
        List.count_cons_of_ne (instructionLine_ne_labelLine pc i l), ih, ← List.count_append,
        ← List.map_append, List.takeWhile_append_dropWhile]

/-! ## Sorted labels -/

/-- The order of labels in a listing: by position, and by number at one position. -/
def Earlier (a b : Nat × Label) : Prop :=
  a.1 < b.1 ∨ a.1 = b.1 ∧ a.2 < b.2

theorem mem_placed {labels : Array (Option Nat)} {p : Nat × Label} :
    p ∈ placed labels ↔ labels[p.2]? = some (some p.1) := by
  obtain ⟨pc, l⟩ := p
  simp only [placed, List.mem_mergeSort, List.mem_filterMap, Prod.exists]
  constructor
  · rintro ⟨position, l', hmem, hp⟩
    obtain ⟨pc', rfl, hpair⟩ := Option.map_eq_some_iff.mp hp
    obtain ⟨rfl, rfl⟩ := Prod.mk.inj hpair
    simpa [List.mem_zipIdx_iff_getElem?] using hmem
  · intro h
    exact ⟨some pc, l, by simpa [List.mem_zipIdx_iff_getElem?] using h, rfl⟩

/-- A label has one position at most, so no two entries are of the same label. -/
theorem nodup_placed (labels : Array (Option Nat)) : ((placed labels).map (·.2)).Nodup := by
  rw [placed, ((List.mergeSort_perm _ _).map _).nodup_iff, List.Nodup, List.pairwise_map,
    List.pairwise_filterMap]
  have hdistinct := List.nodup_zipIdx_map_snd labels.toList
  rw [List.Nodup, List.pairwise_map] at hdistinct
  refine hdistinct.imp ?_
  rintro ⟨p, l⟩ ⟨p', l'⟩ hne a ha a' ha'
  obtain ⟨_, _, rfl⟩ := Option.map_eq_some_iff.mp ha
  obtain ⟨_, _, rfl⟩ := Option.map_eq_some_iff.mp ha'
  exact hne

theorem pairwise_placed (labels : Array (Option Nat)) : (placed labels).Pairwise Earlier := by
  have hsorted : (placed labels).Pairwise fun a b => a.1 < b.1 || (a.1 == b.1 && a.2 ≤ b.2) := by
    refine List.pairwise_mergeSort (fun a b c => ?_) (fun a b => ?_) _
    · simp only [Bool.or_eq_true, Bool.and_eq_true, decide_eq_true_eq, beq_iff_eq]
      grind
    · simp only [Bool.or_eq_true, Bool.and_eq_true, decide_eq_true_eq, beq_iff_eq]
      grind
  have hdistinct := nodup_placed labels
  rw [List.Nodup, List.pairwise_map] at hdistinct
  refine hsorted.imp₂ ?_ hdistinct
  intro a b hle hne
  simp only [Bool.or_eq_true, Bool.and_eq_true, decide_eq_true_eq, beq_iff_eq] at hle
  exact hle.imp_right fun h => ⟨h.1, lt_of_le_of_ne h.2 hne⟩

/-! ## The merge -/

/-- The labels among pending ones that stand at a position. -/
def standing (pending : List (Nat × Label)) (pc : Nat) : List Label :=
  (pending.filter (·.1 == pc)).map (·.2)

/-- The labels among pending ones that stand at a position or past it. -/
def remaining (pending : List (Nat × Label)) (pc : Nat) : List Label :=
  (pending.filter (pc ≤ ·.1)).map (·.2)

/-- If nothing before a position is pending, what is taken at it is all that stands there, and
what is left stands past it. -/
theorem pending_split {pending : List (Nat × Label)} {pc : Nat} (hs : pending.Pairwise Earlier)
    (hpc : ∀ p ∈ pending, pc ≤ p.1) :
    pending.takeWhile (·.1 == pc) = pending.filter (·.1 == pc) ∧
      pending.dropWhile (·.1 == pc) = pending.filter (pc + 1 ≤ ·.1) := by
  induction pending with
  | nil => exact ⟨rfl, rfl⟩
  | cons p rest ih =>
      obtain ⟨hfirst, hrest⟩ := List.pairwise_cons.mp hs
      obtain ⟨hp, hpcs⟩ := List.forall_mem_cons.mp hpc
      by_cases hat : p.1 = pc
      · simp [hat, ih hrest hpcs]
      · -- the first one stands past the position, and so do all after it
        have hpast : ∀ q ∈ p :: rest, pc + 1 ≤ q.1 := by
          refine List.forall_mem_cons.mpr ⟨by omega, fun q hq => ?_⟩
          have hlater := hfirst q hq
          rw [Earlier] at hlater
          omega
        constructor
        · rw [List.takeWhile_cons_of_neg (by simpa using hat), eq_comm, List.filter_eq_nil_iff]
          intro q hq
          have hq := hpast q hq
          simp only [beq_iff_eq]
          omega
        · rw [List.dropWhile_cons_of_neg (by simpa using hat), eq_comm, List.filter_eq_self]
          intro q hq
          simpa using hpast q hq

/-- The lines of an instruction: those of the labels at its position, and its own. -/
def instructionLines (labels : List Label) (pc : Nat) (i : Instruction) : List String :=
  labels.map labelLine ++ [instructionLine pc i]

/-- Each instruction comes after the labels that stand at its position, and the labels past the
last one come at the end. -/
theorem body_eq {pending : List (Nat × Label)} {pc : Nat} (hs : pending.Pairwise Earlier)
    (hpc : ∀ p ∈ pending, pc ≤ p.1) (is : List Instruction) :
    body pc pending is =
      ((is.zipIdx pc).flatMap fun p => instructionLines (standing pending p.2) p.2 p.1) ++
        (remaining pending (pc + is.length)).map labelLine := by
  induction is generalizing pc pending with
  | nil =>
      have hall : pending.filter (pc ≤ ·.1) = pending :=
        List.filter_eq_self.mpr fun p hp => by simpa using hpc p hp
      simp [body, remaining, hall]
  | cons i rest ih =>
      obtain ⟨htaken, hleft⟩ := pending_split hs hpc
      have hlater := @ih (pending.filter (pc + 1 ≤ ·.1)) (pc + 1)
        (hs.sublist List.filter_sublist) (by simp)
      -- what is left has the same labels at all later positions
      have hstanding : ∀ p ∈ rest.zipIdx (pc + 1),
          standing (pending.filter (pc + 1 ≤ ·.1)) p.2 = standing pending p.2 := by
        intro p hp
        have hge : pc + 1 ≤ p.2 := (List.mem_zipIdx hp).1
        rw [standing, standing, List.filter_filter]
        congr 2
        funext q
        grind
      have hremaining : remaining (pending.filter (pc + 1 ≤ ·.1)) (pc + 1 + rest.length) =
          remaining pending (pc + (i :: rest).length) := by
        rw [remaining, remaining, List.filter_filter, List.length_cons]
        congr 2
        funext q
        grind
      rw [body, htaken, hleft, hlater, hremaining, List.zipIdx_cons, List.flatMap_cons,
        List.flatMap_congr fun p hp => by rw [hstanding p hp]]
      simp [instructionLines, standing]

end Listing

/-! ## Texts without line breaks -/

/-- The name that an operand comes with. -/
def Operand.name? : Operand → Option String
  | .name n | .call n _ _ => some n
  | _ => none

namespace Listing

/-- A text without line breaks. -/
def Unbroken (s : String) : Prop :=
  '\n' ∉ s.toList

instance (s : String) : Decidable (Unbroken s) :=
  inferInstanceAs (Decidable ('\n' ∉ s.toList))

@[simp] theorem unbroken_append {s t : String} : Unbroken (s ++ t) ↔ Unbroken s ∧ Unbroken t := by
  rw [Unbroken, String.toList_append, List.mem_append, not_or]
  rfl

@[simp] theorem unbroken_toString {s : String} : Unbroken (toString s) ↔ Unbroken s :=
  .rfl

@[simp] theorem unbroken_nat (n : Nat) : Unbroken n.repr := by
  intro h
  have hdigit : '\n' ∈ Nat.toDigits 10 n := by simpa using h
  exact absurd (Nat.isDigit_of_mem_toDigits (by decide) (by decide) hdigit) (by decide)

@[simp] theorem unbroken_int (i : Int) : Unbroken i.repr := by
  cases i with
  | ofNat n => exact unbroken_nat n
  | negSucc n => exact unbroken_append.mpr ⟨by decide, unbroken_nat (n + 1)⟩

@[simp] theorem unbroken_label (l : Label) : Unbroken (labelText l) := by
  simp +decide [labelText]

@[simp] theorem unbroken_double (layout : Layout) (x : Float) : Unbroken (layout.text x) := by
  have hwrite : ∀ d, '\n' ∉ layout.write d := by
    intro d
    have hdigits : '\n' ∉ (toString d.digits).toList := unbroken_nat d.digits
    have hlead : ∀ i : Int, '\n' ∉ (toString i).toList := unbroken_int
    rw [Layout.write]
    generalize (toString d.digits).toList = digits at hdigits ⊢
    have htake : ∀ n, '\n' ∉ digits.take n := fun n h => hdigits (List.mem_of_mem_take h)
    have hdrop : ∀ n, '\n' ∉ digits.drop n := fun n h => hdigits (List.mem_of_mem_drop h)
    simp only [Layout.positional, Layout.scientific]
    grind
  simp only [Layout.text, Unbroken]
  split
  · split
    · decide
    · split <;> simp
  · split <;> split <;> simp [hwrite]

@[simp] theorem unbroken_bracketList {items : List String} :
    Unbroken (bracketList items) ↔ ∀ s ∈ items, Unbroken s := by
  have hitems : Unbroken (", ".intercalate items) ↔ ∀ s ∈ items, Unbroken s := by
    induction items with
    | nil => simp +decide
    | cons s rest ih =>
        cases rest with
        | nil => simp
        | cons t rest => simp +decide [String.intercalate_cons_cons, ih]
  simp +decide [bracketList, hitems]

theorem unbroken_operand {o : Operand} (h : ∀ n ∈ o.name?, Unbroken n) : Unbroken o.text := by
  cases o with
  | increment n delta =>
      simp only [Operand.text, Operand.signed]
      split <;> simp +decide
  | name n | call n argc returns =>
      have hn := h n rfl
      simp +decide [Operand.text, hn]
  | _ => simp +decide [Operand.text, ↓List.forall_mem_map]

theorem unbroken_name (o : Opcode) : Unbroken o.name := by
  cases o <;> decide

theorem unbroken_instructionLine {pc : Nat} {i : Instruction}
    (h : ∀ o ∈ i.operand, ∀ n ∈ o.name?, Unbroken n) : Unbroken (instructionLine pc i) := by
  have hcolumn : Unbroken (column pc) :=
    unbroken_append.mpr ⟨by simp [Unbroken], unbroken_nat pc⟩
  have htext : Unbroken i.text := by
    rw [Instruction.text]
    split
    · next o ho => simp +decide [unbroken_name, unbroken_operand (h o ho)]
    · exact unbroken_name _
  simp +decide [instructionLine, hcolumn, htext]

theorem unbroken_labelLine (l : Label) : Unbroken (labelLine l) := by
  simp +decide [labelLine]

theorem unbroken_of_mem_table {handlers : List Handler} {line : String}
    (h : ∀ row ∈ handlers, ∀ n ∈ row.catchType, Unbroken n) (hline : line ∈ table handlers) :
    Unbroken line := by
  rw [table] at hline
  split at hline
  · cases hline
  · obtain rfl | ⟨row, hrow, rfl⟩ := by simpa using hline
    · decide
    · have hclass : Unbroken (catchText row.catchType) := by
        cases hc : row.catchType with
        | none => decide
        | some n => exact h row hrow n hc
      simp +decide [handlerLine, hclass]

/-- A text whose lines have no breaks in them is split into these lines. -/
theorem splitOn_join {lines : List String} (h : ∀ line ∈ lines, Unbroken line) :
    (String.join (lines.map (· ++ "\n"))).toList.splitOn '\n' =
      lines.map String.toList ++ [[]] := by
  induction lines with
  | nil => rfl
  | cons line rest ih =>
      obtain ⟨hline, hrest⟩ := List.forall_mem_cons.mp h
      rw [String.toList_join] at ih ⊢
      rw [List.map_cons, List.flatMap_cons, String.toList_append, List.append_assoc]
      exact (List.splitOn_append_cons_self_of_not_mem hline _).trans
        (congrArg (line.toList :: ·) (ih hrest))

end Listing

/-! ## Listings of code -/

namespace Code

open Listing

variable (code : Code)

/-- The labels at a position, in ascending order. -/
def labelsAt (pc : Nat) : List Label :=
  (List.range code.labels.size).filter fun l => code.position l = some pc

theorem position_eq_some_iff {l : Label} {pc : Nat} :
    code.position l = some pc ↔ (pc, l) ∈ placed code.labels := by
  rw [mem_placed, position, Option.join_eq_some_iff]

theorem standing_eq_labelsAt (pc : Nat) :
    standing (placed code.labels) pc = code.labelsAt pc := by
  refine List.Pairwise.eq_of_mem_iff (r := (· < ·)) ?_
    (List.pairwise_lt_range.sublist List.filter_sublist) fun l => ?_
  · rw [standing, List.pairwise_map, List.pairwise_filter]
    refine (pairwise_placed code.labels).imp fun {a b} h ha hb => ?_
    simp only [beq_iff_eq] at ha hb
    obtain h | h := h
    · omega
    · exact h.2
  · have hsize : code.position l = some pc → l < code.labels.size := by
      intro h
      rw [position, Option.join_eq_some_iff] at h
      exact (Array.getElem?_eq_some_iff.mp h).1
    simp only [standing, labelsAt, List.mem_map, List.mem_filter, List.mem_range, beq_iff_eq,
      decide_eq_true_eq, Prod.exists]
    constructor
    · rintro ⟨pc', l', ⟨hmem, rfl⟩, rfl⟩
      have hpos := code.position_eq_some_iff.mpr hmem
      exact ⟨hsize hpos, hpos⟩
    · rintro ⟨-, hpos⟩
      exact ⟨pc, l, ⟨code.position_eq_some_iff.mp hpos, rfl⟩, rfl⟩

/-- How labels follow each other: by position, and by number at one position. -/
def Precedes (l l' : Label) : Prop :=
  ∃ pc pc', code.position l = some pc ∧ code.position l' = some pc' ∧ Earlier (pc, l) (pc', l')

theorem pairwise_remaining (pc : Nat) :
    (remaining (placed code.labels) pc).Pairwise code.Precedes := by
  rw [remaining, List.pairwise_map, List.pairwise_filter]
  refine (pairwise_placed code.labels).imp_of_mem fun {a b} ha hb h _ _ => ?_
  exact ⟨a.1, b.1, code.position_eq_some_iff.mpr ha, code.position_eq_some_iff.mpr hb, h⟩

theorem mem_remaining {pc : Nat} {l : Label} :
    l ∈ remaining (placed code.labels) pc ↔ ∃ pc', pc ≤ pc' ∧ code.position l = some pc' := by
  simp only [remaining, List.mem_map, List.mem_filter, decide_eq_true_eq, Prod.exists,
    position_eq_some_iff]
  constructor
  · rintro ⟨pc', l', ⟨hmem, hle⟩, rfl⟩
    exact ⟨pc', hle, hmem⟩
  · rintro ⟨pc', hle, hmem⟩
    exact ⟨pc', l, ⟨hmem, hle⟩, rfl⟩

theorem count_labelLine_listing (l : Label) :
    code.listing.count (labelLine l) = if (code.position l).isSome then 1 else 0 := by
  have hplaced : l ∈ (placed code.labels).map (·.2) ↔ (code.position l).isSome := by
    rw [Option.isSome_iff_exists]
    simp only [position_eq_some_iff, List.mem_map, Prod.exists]
    constructor
    · rintro ⟨pc, l', hmem, rfl⟩
      exact ⟨pc, hmem⟩
    · rintro ⟨pc, hmem⟩
      exact ⟨pc, l, hmem, rfl⟩
  rw [listing, List.count_append, List.count_cons_of_ne (header_ne_labelLine _ l), count_body,
    List.count_eq_zero.mpr (labelLine_notMem_table _ l), Nat.add_zero, (nodup_placed _).count]
  simp only [hplaced]

theorem listing_eq : code.listing = s!"max_locals {code.maxLocals}" ::
    (code.instructions.toList.zipIdx.flatMap fun p =>
      instructionLines (code.labelsAt p.2) p.2 p.1) ++
    (remaining (placed code.labels) code.instructions.size).map labelLine ++
    table code.handlers := by
  have hbody := body_eq (pairwise_placed code.labels) (fun p _ => Nat.zero_le p.1)
    code.instructions.toList
  simp only [standing_eq_labelsAt, Nat.zero_add, Array.length_toList] at hbody
  rw [listing, hbody, ← List.cons_append]

/-- The names in the code have no line breaks in them. -/
structure UnbrokenNames : Prop where
  operands : ∀ i ∈ code.instructions, ∀ o ∈ i.operand, ∀ n ∈ o.name?, Unbroken n
  classes : ∀ row ∈ code.handlers, ∀ n ∈ row.catchType, Unbroken n

theorem unbroken_of_mem_listing (h : code.UnbrokenNames) {line : String}
    (hline : line ∈ code.listing) : Unbroken line := by
  rw [listing_eq] at hline
  simp only [List.mem_append, List.mem_cons, List.mem_flatMap, List.mem_map, instructionLines,
    List.not_mem_nil, or_false] at hline
  obtain ((rfl | ⟨⟨i, pc⟩, hi, ⟨l, -, rfl⟩ | rfl⟩) | ⟨l, -, rfl⟩) | hline := hline
  · simp +decide
  · exact unbroken_labelLine l
  · exact unbroken_instructionLine
      (h.operands i (Array.mem_def.mpr (List.fst_mem_of_mem_zipIdx hi)))
  · exact unbroken_labelLine l
  · exact unbroken_of_mem_table h.classes hline

/-- In the listing of any code each instruction has a line, in order, and directly before it
stand the lines of exactly the labels at its position, in ascending order. The lines of exactly
the labels at the end or past it follow the last instruction, sorted by position and then by
number. So each label that has a position has one line, and the others have none. If the names in
the code have no line breaks in them, these are the lines of the printed text. -/
theorem listing_shows_labels :
    (∃ past : List Label,
      code.listing =
        s!"max_locals {code.maxLocals}" ::
          (code.instructions.toList.zipIdx.flatMap fun p =>
            instructionLines (code.labelsAt p.2) p.2 p.1) ++
          past.map labelLine ++ table code.handlers ∧
      (∀ l, l ∈ past ↔ ∃ pc, code.instructions.size ≤ pc ∧ code.position l = some pc) ∧
      past.Pairwise code.Precedes) ∧
    (∀ l, code.listing.count (labelLine l) = if (code.position l).isSome then 1 else 0) ∧
    (code.UnbrokenNames →
      code.text.toList.splitOn '\n' = code.listing.map String.toList ++ [[]]) :=
  ⟨⟨_, code.listing_eq, fun _ => code.mem_remaining, code.pairwise_remaining _⟩,
    code.count_labelLine_listing, fun h => splitOn_join fun _ => code.unbroken_of_mem_listing h⟩

end Code

end MethodCompiler
