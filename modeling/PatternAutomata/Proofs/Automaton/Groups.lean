import Mathlib.Data.List.Basic
import PatternAutomata.Automaton.Basic

/-!
# The groups of an automaton

Groups are declared up to the highest index before any copy of them is recorded. From then on each
copy that is recorded goes in front of the earlier ones of its group, and nothing else changes.

## Main definitions

* `Group.record` — groups with copies recorded.
* `Group.copies` — the copies of one group among all that were recorded, the latest one first.

## Main statements

* `Automaton.groupCount_of_record`, `Automaton.spansOf_of_record` — what is recorded is read back.
-/
namespace PatternAutomata

namespace Group

/-- The groups with more spans recorded, the first of the list before the others. -/
def record (spans : List (Nat × GroupSpan)) (groups : List Group) : List Group :=
  spans.foldl (fun groups s => Group.update s.1 (s.2 :: ·) groups) groups

/-- The spans of group `index`, the latest one first. -/
def copies (spans : List (Nat × GroupSpan)) (index : Nat) : List GroupSpan :=
  ((spans.filter (·.1 == index)).map (·.2)).reverse

variable {spans spans' : List (Nat × GroupSpan)} {index k n : Nat} {f : Nat → List GroupSpan}

theorem record_append (spans spans' : List (Nat × GroupSpan)) (groups : List Group) :
    record (spans ++ spans') groups = record spans' (record spans groups) :=
  List.foldl_append

theorem mem_copies {g : GroupSpan} : g ∈ copies spans index ↔ (index, g) ∈ spans := by
  simp only [copies, List.mem_reverse, List.mem_map, List.mem_filter, beq_iff_eq]
  constructor
  · rintro ⟨⟨i, g⟩, ⟨h, rfl⟩, rfl⟩
    exact h
  · exact fun h => ⟨_, ⟨h, rfl⟩, rfl⟩

theorem length_copies : (copies spans index).length = spans.countP (·.1 == index) := by
  rw [copies, List.length_reverse, List.length_map, List.countP_eq_length_filter]

theorem copies_append (spans spans' : List (Nat × GroupSpan)) (index : Nat) :
    copies (spans ++ spans') index = copies spans' index ++ copies spans index := by
  simp [copies]

theorem copies_cons (s : Nat × GroupSpan) (spans : List (Nat × GroupSpan)) (index : Nat) :
    copies (s :: spans) index = copies spans index ++ if s.1 = index then [s.2] else [] := by
  by_cases h : s.1 = index <;> simp [copies, h]

theorem copies_eq_nil (h : index ∉ spans.map Prod.fst) : copies spans index = [] := by
  rw [List.eq_nil_iff_forall_not_mem]
  exact fun g hg => h (List.mem_map_of_mem (mem_copies.1 hg))

/-- Groups that are all different have one copy each. -/
theorem copies_eq_singleton (h : (spans.map Prod.fst).Nodup) {g : GroupSpan}
    (hg : (index, g) ∈ spans) : copies spans index = [g] := by
  induction spans with
  | nil => cases hg
  | cons s spans ih =>
    obtain ⟨hs, hspans⟩ := List.nodup_cons.1 h
    rw [copies_cons]
    rcases List.mem_cons.1 hg with rfl | hg
    · rw [copies_eq_nil hs, if_pos rfl, List.nil_append]
    · have hne : s.1 ≠ index := by
        rintro rfl
        exact hs (List.mem_map.2 ⟨_, hg, rfl⟩)
      rw [ih hspans hg, if_neg hne, List.append_nil]

/-- The groups from `k` on, each with its spans. -/
def list (f : Nat → List GroupSpan) (k n : Nat) : List Group :=
  (List.range' k n).map fun i => ⟨i, f i⟩

theorem update_list (change : List GroupSpan → List GroupSpan) (h : k ≤ index)
    (h' : index < k + n) :
    update index change (list f k n) =
      list (fun i => if i = index then change (f i) else f i) k n := by
  induction n generalizing k with
  | zero => omega
  | succ n ih =>
    simp only [list, List.range'_succ, List.map_cons, update] at ih ⊢
    rcases Nat.eq_or_lt_of_le h with rfl | hlt
    · have hrest : ∀ i ∈ List.range' (k + 1) n, i ≠ k := by
        intro i hi
        have := List.mem_range'_1.1 hi
        omega
      simp only [Nat.lt_irrefl, if_false, if_true]
      congr 1
      exact List.map_congr_left fun i hi => by rw [if_neg (hrest i hi)]
    · rw [if_neg (by omega), if_neg (Nat.ne_of_gt hlt), if_neg (Nat.ne_of_lt hlt),
        ih hlt (by omega)]

/-- Recording copies of groups that are listed puts them in front of what is there. -/
theorem record_list (h : ∀ s ∈ spans, k ≤ s.1 ∧ s.1 < k + n) :
    record spans (list f k n) = list (fun i => copies spans i ++ f i) k n := by
  induction spans generalizing f with
  | nil => rfl
  | cons s spans ih =>
    obtain ⟨⟨hle, hlt⟩, hspans⟩ := List.forall_mem_cons.1 h
    have hstep : record (s :: spans) (list f k n) =
        record spans (update s.1 (s.2 :: ·) (list f k n)) := rfl
    rw [hstep, update_list _ hle hlt, ih hspans]
    congr 1
    funext i
    rw [copies_cons, List.append_assoc]
    by_cases hi : i = s.1
    · subst hi
      simp
    · rw [if_neg hi, if_neg (Ne.symm hi), List.nil_append]

end Group

namespace Automaton

variable {a : Automaton} {spans : List (Nat × GroupSpan)} {n : Nat}

theorem foldl_max_range' (n : Nat) : (List.range' 1 n).foldl max 0 = n := by
  induction n with
  | zero => rfl
  | succ n ih =>
    rw [List.range'_concat, List.foldl_append, ih]
    simp only [List.foldl_cons, List.foldl_nil]
    omega

theorem groupCount_of_record (hspans : ∀ s ∈ spans, 1 ≤ s.1 ∧ s.1 < 1 + n)
    (h : a.groups = Group.record spans (Group.list (fun _ => []) 1 n)) : a.groupCount = n := by
  rw [groupCount, h, Group.record_list hspans, Group.list, List.foldl_map, foldl_max_range']

theorem spansOf_of_record (hspans : ∀ s ∈ spans, 1 ≤ s.1 ∧ s.1 < 1 + n)
    (h : a.groups = Group.record spans (Group.list (fun _ => []) 1 n)) (index : Nat) :
    a.spansOf index = Group.copies spans index := by
  rw [spansOf, h, Group.record_list hspans, Group.list, List.find?_map, Option.map_map]
  cases hfind : (List.range' 1 n).find? fun i => i == index with
  | some i =>
    obtain rfl : i = index := by simpa using List.find?_some hfind
    simp [Function.comp_def, hfind]
  | none =>
    have hnone : Group.copies spans index = [] := by
      rw [List.eq_nil_iff_forall_not_mem]
      intro g hg
      have hrange := hspans _ (Group.mem_copies.1 hg)
      exact List.find?_eq_none.1 hfind index (List.mem_range'_1.2 hrange) (beq_self_eq_true index)
    simp [Function.comp_def, hfind, hnone]

end Automaton

end PatternAutomata
