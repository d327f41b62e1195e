import Mathlib.Data.List.Nodup
import Mathlib.Data.List.Pairwise
import Mathlib.Data.List.TakeWhile
import PatternAutomata.Proofs.Automaton.Groups
import PatternAutomata.Proofs.Region.Walk

/-!
# What groups report along a walk

A copy of a group reports the text from the last visit to its entry to the next visit to its exit.
A walk that enters a copy also leaves it, so there is something to report, and if a group has only
one copy this is what its last traversal covers.

## Main definitions

* `GroupSpan.Reports` — what a copy of a group reports along a run.

## Main statements

* `Path.locate_eq_some_iff` — what is read off a path is what the copy reports.
* `Region.Walk.accounted` — what becomes of a copy along a walk.
-/
namespace PatternAutomata

/-- Along the visits the copy is entered for the last time where `span` begins, and first left
after that where it ends. -/
def GroupSpan.Reports (g : GroupSpan) (visits : List Visit) (span : Span) : Prop :=
  ∃ before after, visits = before ++ ⟨g.entry, span.start⟩ :: after ∧
    (∀ v ∈ after, v.state ≠ g.entry) ∧
    after.find? (·.state == g.exit) = some ⟨g.exit, span.stop⟩

namespace GroupSpan.Reports

variable {g : GroupSpan} {visits visits' : List Visit} {span : Span}

theorem append_left (visits' : List Visit) (h : g.Reports visits span) :
    g.Reports (visits' ++ visits) span := by
  obtain ⟨before, after, rfl, hafter, hexit⟩ := h
  exact ⟨visits' ++ before, after, (List.append_assoc ..).symm, hafter, hexit⟩

theorem append_right (h : g.Reports visits span) (h' : ∀ v ∈ visits', v.state ≠ g.entry) :
    g.Reports (visits ++ visits') span := by
  obtain ⟨before, after, rfl, hafter, hexit⟩ := h
  refine ⟨before, after ++ visits', by simp, fun v hv => ?_, ?_⟩
  · exact (List.mem_append.1 hv).elim (hafter v) (h' v)
  · rw [List.find?_append, hexit, Option.some_or]

end GroupSpan.Reports

/-- A state is not visited, or it is visited for the last time. -/
theorem exists_last_visit (visits : List Visit) (id : Nat) :
    (∀ v ∈ visits, v.state ≠ id) ∨ ∃ before offset after,
      visits = before ++ ⟨id, offset⟩ :: after ∧ ∀ v ∈ after, v.state ≠ id := by
  induction visits with
  | nil => exact .inl nofun
  | cons v visits ih =>
    rcases ih with h | ⟨before, offset, after, rfl, hafter⟩
    · by_cases hv : v.state = id
      · subst hv
        exact .inr ⟨[], v.offset, visits, rfl, h⟩
      · exact .inl (List.forall_mem_cons.2 ⟨hv, h⟩)
    · exact .inr ⟨v :: before, offset, after, rfl, hafter⟩

namespace Path

variable {p : Path} {g : GroupSpan}

theorem locate_eq_none (h : ∀ v ∈ p.visits, v.state ≠ g.entry) : p.locate g = none := by
  have hdrop : (p.last :: p.earlier).dropWhile (·.state != g.entry) = [] := by
    rw [List.dropWhile_eq_nil_iff]
    intro v hv
    simpa using h v (List.mem_reverse.2 hv)
  rw [locate, hdrop]

/-- What is read off a path is what the copy reports. -/
theorem locate_eq_some_iff (hg : g.entry ≠ g.exit) {span : Span} :
    p.locate g = some span ↔ g.Reports p.visits span := by
  have hlast {before after : List Visit} {offset : Nat}
      (h : p.visits = before ++ ⟨g.entry, offset⟩ :: after)
      (hafter : ∀ v ∈ after, v.state ≠ g.entry) :
      p.locate g = (after.find? (·.state == g.exit)).map fun v => ⟨offset, v.offset⟩ := by
    have hrev : p.last :: p.earlier = after.reverse ++ ⟨g.entry, offset⟩ :: before.reverse := by
      rw [← List.reverse_reverse (p.last :: p.earlier), ← visits, h]
      simp
    have hskip : ∀ v ∈ after.reverse, (v.state != g.entry) = true := by
      intro v hv
      simpa using hafter v (List.mem_reverse.1 hv)
    have hdrop : (p.last :: p.earlier).dropWhile (·.state != g.entry) =
        ⟨g.entry, offset⟩ :: before.reverse := by
      rw [hrev, List.dropWhile_append_of_pos hskip]
      simp
    have htake : (p.last :: p.earlier).takeWhile (·.state != g.entry) = after.reverse := by
      rw [hrev, List.takeWhile_append_of_pos hskip]
      simp
    rw [locate, hdrop]
    simp only [htake, List.reverse_reverse]
    rw [List.find?_cons_of_neg (by simpa using hg)]
  constructor
  · intro h
    rcases exists_last_visit p.visits g.entry with hnone | ⟨before, offset, after, hsplit, hafter⟩
    · rw [locate_eq_none hnone] at h
      cases h
    · rw [hlast hsplit hafter] at h
      obtain ⟨⟨id, stop⟩, hexit, rfl⟩ := Option.map_eq_some_iff.1 h
      obtain rfl : id = g.exit := by simpa using List.find?_some hexit
      exact ⟨before, after, hsplit, hafter, hexit⟩
  · rintro ⟨before, after, hsplit, hafter, hexit⟩
    rw [hlast hsplit hafter, hexit]
    rfl

end Path

namespace Region

/-- Along a run from `s` to `t` the copy is not entered, or it reports a span; and the cursor knows
about it if the copy is the only one of its group. -/
def Accounted (index : Nat) (g : GroupSpan) (only : Prop) (s : Cursor) (run : List Visit)
    (t : Cursor) : Prop :=
  ((∀ v ∈ run, v.state ≠ g.entry) ∧ (only → t.captures index = s.captures index)) ∨
    ∃ span, g.Reports run span ∧ (only → t.captures index = some span)

section Accounted

variable {index : Nat} {g : GroupSpan} {only only' : Prop} {s t u : Cursor} {run run' : List Visit}

theorem Accounted.mono (h : Accounted index g only s run t) (honly : only' → only) :
    Accounted index g only' s run t :=
  h.imp (fun ⟨hrun, ht⟩ => ⟨hrun, fun h => ht (honly h)⟩)
    fun ⟨span, hspan, ht⟩ => ⟨span, hspan, fun h => ht (honly h)⟩

theorem Accounted.append (h : Accounted index g only s run t)
    (h' : Accounted index g only t run' u) : Accounted index g only s (run ++ run') u := by
  rcases h' with ⟨hrun', hu⟩ | ⟨span, hspan, hu⟩
  · rcases h with ⟨hrun, ht⟩ | ⟨span, hspan, ht⟩
    · refine .inl ⟨fun v hv => ?_, fun ho => (hu ho).trans (ht ho)⟩
      exact (List.mem_append.1 hv).elim (hrun v) (hrun' v)
    · exact .inr ⟨span, hspan.append_right hrun', fun ho => (hu ho).trans (ht ho)⟩
  · exact .inr ⟨span, hspan.append_left run, hu⟩

/-- A visit to another state does not matter. -/
theorem accounted_single {v : Visit} (h : v.state ≠ g.entry) (s : Cursor) :
    Accounted index g only s [v] s :=
  .inl ⟨fun w hw => by rwa [List.mem_singleton.1 hw], fun _ => rfl⟩

theorem Laps.accounted {b : Block} {W : Cursor → List Visit → Cursor → Prop}
    (hstart : b.start ≠ g.entry) (hinner : b.inner ≠ g.entry) (hfinish : b.finish ≠ g.entry)
    (hnext : b.next ≠ g.entry) (hW : ∀ s run t, W s run t → Accounted index g only s run t)
    (h : Laps b W s run t) : Accounted index g only s run t := by
  have hlap {s t : Cursor} {lap : List Visit} (h : Lap b W s lap t) :
      Accounted index g only s lap t := by
    cases h with
    | skip => exact accounted_single hfinish s
    | through h =>
      exact (accounted_single hinner s).append ((hW _ _ _ h).append (accounted_single hfinish t))
  induction h with
  | leave h => exact (hlap h).append (accounted_single hnext _)
  | again _ h _ ih => exact (hlap h).append ((accounted_single hstart _).append ih)

end Accounted

variable {flags : Flags} {text : String} {r : Region} {lo hi index : Nat} {g : GroupSpan}
  {s t : Cursor} {run : List Visit}

/-- The states of a copy are among those that were added for its region. -/
theorem Numbered.span_mem (hn : r.Numbered lo hi) (hg : (index, g) ∈ r.spans) :
    lo ≤ g.entry ∧ g.entry < g.exit ∧ g.exit < hi := by
  induction r generalizing lo hi with
  | empty | edge => cases hg
  | seq r r' ih ih' =>
    obtain ⟨mid, hn, hn'⟩ := hn
    have hle := hn.le
    have hle' := hn'.le
    rcases List.mem_append.1 hg with hg | hg
    · have := ih hn hg
      omega
    · have := ih' hn' hg
      omega
  | alt count start part join ih =>
    obtain ⟨base, rfl, hnums, rfl, rfl⟩ := hn
    obtain ⟨i, hi, hg⟩ := List.mem_flatMap.1 hg
    have hi := List.mem_range.1 hi
    have := ih i (hnums i hi).2 hg
    have := part_bounds hnums hi
    omega
  | block b body ih =>
    obtain ⟨rfl, -, hn, -, rfl⟩ := hn
    have := ih hn hg
    omega
  | capture i first last body ih =>
    obtain ⟨rfl, hn, rfl⟩ := hn
    have hle := hn.le
    rcases List.mem_append.1 hg with hg | hg
    · have := ih hn hg
      omega
    · cases List.mem_singleton.1 hg
      exact ⟨le_rfl, hle, Nat.lt_succ_self _⟩

/-- A walk does not change what other groups have reported. -/
theorem Walk.captures_eq (h : r.Walk flags text s run t) (hi : index ∉ r.spans.map Prod.fst) :
    t.captures index = s.captures index := by
  induction r generalizing s run t with
  | empty =>
    obtain ⟨-, rfl⟩ := h
    rfl
  | edge =>
    obtain ⟨offset, -, -, rfl⟩ := h
    rfl
  | seq r r' ih ih' =>
    obtain ⟨run₁, m, run₂, h, h', -⟩ := h
    rw [spans, List.map_append, List.mem_append, not_or] at hi
    exact (ih' h' hi.2).trans (ih h hi.1)
  | alt count start part join ih =>
    obtain ⟨i, hlt, run', h, -⟩ := h
    refine ih i h fun hmem => hi ?_
    obtain ⟨x, hx, rfl⟩ := List.mem_map.1 hmem
    exact List.mem_map_of_mem (List.mem_flatMap.2 ⟨i, List.mem_range.2 hlt, hx⟩)
  | block b body ih =>
    obtain ⟨run', h, -⟩ := h
    have hlap {s t : Cursor} {lap : List Visit} (h : Lap b (body.Walk flags text) s lap t) :
        t.captures index = s.captures index := by
      cases h with
      | skip => rfl
      | through h => exact ih h hi
    induction h with
    | leave h => exact hlap h
    | again _ h _ ih => exact ih.trans (hlap h)
  | capture i first last body ih =>
    obtain ⟨m, run', h, -, rfl⟩ := h
    rw [spans, List.map_append, List.mem_append, not_or] at hi
    have hne : index ≠ i := by simpa using hi.2
    exact (if_neg hne).trans (ih h hi.1)

theorem accounted_seq {r' : Region} {mid : Nat} (hn : r.Numbered lo mid) (hn' : r'.Numbered mid hi)
    {m : Cursor} {run₁ run₂ : List Visit} (h : r.Walk flags text s run₁ m)
    (h' : r'.Walk flags text m run₂ t)
    (hr : (index, g) ∈ r.spans → Accounted index g (r.spans.map Prod.fst).Nodup s run₁ m)
    (hr' : (index, g) ∈ r'.spans → Accounted index g (r'.spans.map Prod.fst).Nodup m run₂ t)
    (hg : (index, g) ∈ (seq r r').spans) :
    Accounted index g ((seq r r').spans.map Prod.fst).Nodup s (run₁ ++ run₂) t := by
  rw [spans, List.map_append]
  rcases List.mem_append.1 hg with hg | hg
  · refine ((hr hg).mono fun ho => (List.nodup_append.1 ho).1).append
      (.inl ⟨fun v hv => ?_, fun ho => h'.captures_eq fun hi => ?_⟩)
    · have := hn.span_mem hg
      have := h'.state_mem hn' v hv
      omega
    · exact (List.nodup_append.1 ho).2.2 _ (List.mem_map_of_mem hg) _ hi rfl
  · refine Accounted.append (.inl ⟨fun v hv => ?_, fun ho => h.captures_eq fun hi => ?_⟩)
      ((hr' hg).mono fun ho => (List.nodup_append.1 ho).2.1)
    · have := hn'.span_mem hg
      have := h.state_mem hn v hv
      omega
    · exact (List.nodup_append.1 ho).2.2 _ hi _ (List.mem_map_of_mem hg) rfl

/-- Where the copy is in another part than the one walked through, the walk does not enter it, and
only one of the two parts may hold copies of the group. -/
theorem accounted_alt {count join i : Nat} {start : Nat → Nat} {part : Nat → Region}
    (hn : (alt count start part join).Numbered lo hi) (hlt : i < count)
    (h : (part i).Walk flags text s run t)
    (hpart : ∀ ⦃lo hi⦄, (part i).Numbered lo hi → (index, g) ∈ (part i).spans →
      Accounted index g ((part i).spans.map Prod.fst).Nodup s run t)
    (hg : (index, g) ∈ (alt count start part join).spans) :
    Accounted index g ((alt count start part join).spans.map Prod.fst).Nodup s
      (⟨start i, s.offset⟩ :: (run ++ [⟨join, t.offset⟩])) t := by
  obtain ⟨base, rfl, hnums, rfl, rfl⟩ := hn
  obtain ⟨j, hj, hg⟩ := List.mem_flatMap.1 hg
  have hj := List.mem_range.1 hj
  have hspan := (hnums j hj).2.span_mem hg
  have hbounds := part_bounds hnums hlt
  have hbounds' := part_bounds hnums hj
  have hother (id : Nat) (hid : base i ≤ id ∧ id < base (i + 1)) (heq : id = g.entry) : i = j :=
    eq_of_numbered hnums id hlt hj hid (by omega)
  have hentry : start i ≠ g.entry := by
    intro heq
    obtain rfl := hother (start i) (by omega) heq
    omega
  refine (accounted_single hentry s).append
    (Accounted.append ?_ (accounted_single (by simp only; omega) t))
  rw [spans, List.map_flatMap, List.nodup_flatMap]
  rcases eq_or_ne i j with rfl | hij
  · exact (hpart (hnums i hlt).2 hg).mono fun ho => ho.1 i (List.mem_range.2 hlt)
  · refine .inl ⟨fun v hv hstate => ?_, fun ho => h.captures_eq fun hi => ?_⟩
    · have := h.state_mem (hnums i hlt).2 v hv
      exact hij (hother v.state (by omega) hstate)
    · have hsymm : Std.Symm (Function.onFun List.Disjoint
          fun i => (part i).spans.map Prod.fst) := ⟨fun _ _ h _ hi hi' => h hi' hi⟩
      exact ho.2.forall (List.mem_range.2 hlt) (List.mem_range.2 hj) hij hi
        (List.mem_map_of_mem hg)

/-- The copy itself reports what its body is walked through. -/
theorem reports_capture {first last : Nat} {body : Region} (hn : body.Numbered (first + 1) last)
    (h : body.Walk flags text s run t) :
    GroupSpan.Reports ⟨first, last⟩ (⟨first, s.offset⟩ :: (run ++ [⟨last, t.offset⟩]))
      ⟨s.offset, t.offset⟩ := by
  have hle := hn.le
  refine ⟨[], _, rfl, fun v hv => ?_, ?_⟩
  · rcases List.mem_append.1 hv with hv | hv
    · have := h.state_mem hn v hv
      simp only
      omega
    · rw [List.mem_singleton.1 hv]
      simp only
      omega
  · have hbody : run.find? (·.state == last) = none := by
      rw [List.find?_eq_none]
      intro v hv
      have := h.state_mem hn v hv
      simp only [beq_iff_eq]
      omega
    simp [hbody]

theorem accounted_capture {i first last : Nat} {body : Region}
    (hn : body.Numbered (first + 1) last) (h : body.Walk flags text s run t)
    (hbody : (index, g) ∈ body.spans → Accounted index g (body.spans.map Prod.fst).Nodup s run t)
    (hg : (index, g) ∈ (capture i first last body).spans) :
    Accounted index g ((capture i first last body).spans.map Prod.fst).Nodup s
      (⟨first, s.offset⟩ :: (run ++ [⟨last, t.offset⟩])) (t.report i s.offset) := by
  rw [spans, List.map_append]
  rcases List.mem_append.1 hg with hg | hg
  · have hspan := hn.span_mem hg
    refine (accounted_single (v := ⟨first, s.offset⟩) (by simp only; omega) s).append
      (((hbody hg).mono fun ho => (List.nodup_append.1 ho).1).append
        (.inl ⟨fun v hv => ?_, fun ho => if_neg fun heq => ?_⟩))
    · rw [List.mem_singleton.1 hv]
      simp only
      omega
    · exact (List.nodup_append.1 ho).2.2 _ (List.mem_map_of_mem hg) _
        (List.mem_singleton_self _) heq
  · cases List.mem_singleton.1 hg
    exact .inr ⟨⟨s.offset, t.offset⟩, reports_capture hn h, fun _ => if_pos rfl⟩

/-- What becomes of a copy along a walk. -/
theorem Walk.accounted (hn : r.Numbered lo hi) (h : r.Walk flags text s run t)
    (hg : (index, g) ∈ r.spans) :
    Accounted index g (r.spans.map Prod.fst).Nodup s run t := by
  induction r generalizing s run t lo hi with
  | empty | edge => cases hg
  | seq r r' ih ih' =>
    obtain ⟨run₁, m, run₂, h, h', rfl⟩ := h
    obtain ⟨mid, hn, hn'⟩ := hn
    exact accounted_seq hn hn' h h' (ih hn h) (ih' hn' h') hg
  | alt count start part join ih =>
    obtain ⟨i, hlt, run', h, rfl⟩ := h
    exact accounted_alt hn hlt h (fun _ _ hn => ih i hn h) hg
  | block b body ih =>
    obtain ⟨run', h, rfl⟩ := h
    obtain ⟨rfl, hinner, hn, hnext, -⟩ := hn
    have hspan := hn.span_mem hg
    refine Accounted.append (accounted_single (v := ⟨b.start, s.offset⟩) (by simp only; omega) s)
      (h.accounted (by omega) (by omega) (by omega) (by omega) fun _ _ _ h => ih hn h hg)
  | capture i first last body ih =>
    obtain ⟨m, run', h, rfl, rfl⟩ := h
    obtain ⟨rfl, hn, rfl⟩ := hn
    exact accounted_capture hn h (ih hn h) hg

end Region

end PatternAutomata
