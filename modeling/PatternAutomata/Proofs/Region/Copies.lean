import PatternAutomata.Proofs.Region.Capture

/-!
# The order in which copies are entered

A group in a counted repetition has several copies. On its way a walk enters them in the order in
which they were added, and after the last one it may begin anew only if they are in a loop. So it
is the latest copy that was entered most recently, unless a loop holds several copies.

## Main definitions

* `Region.Orderly` — no loop holds several copies of a group, and no copy another one.
* `Region.Ascending` — copies are entered in the order in which they were added.

## Main statements

* `Region.Walk.ascending` — the order in which copies are entered.
* `Region.Numbered.copies_descending` — the order in which copies are listed.
-/
namespace PatternAutomata.Region

/-- No loop holds several copies of group `index`, and no copy holds another one. -/
def Orderly (index : Nat) : Region → Prop
  | empty | edge _ _ => True
  | seq r r' => r.Orderly index ∧ r'.Orderly index
  | alt count _ part _ => ∀ i < count, (part i).Orderly index
  | block b body => body.Orderly index ∧
      (b.shape.again = true → (Group.copies body.spans index).length ≤ 1)
  | capture i _ _ body => body.Orderly index ∧ (i = index → Group.copies body.spans index = [])

/-- The later of two visits to entries of copies is not one of the earlier copy. -/
def Ascending (copies : List GroupSpan) (run : List Visit) : Prop :=
  run.Pairwise fun v w => (∃ g ∈ copies, v.state = g.entry) → (∃ g ∈ copies, w.state = g.entry) →
    v.state ≤ w.state

variable {flags : Flags} {text : String} {r : Region} {lo hi index : Nat} {s t : Cursor}
  {copies copies' : List GroupSpan} {run run' : List Visit} {v : Visit}

theorem Ascending.append {mid : Nat}
    (h : Ascending copies run) (h' : Ascending copies run') (hrun : ∀ v ∈ run, v.state ≤ mid)
    (hrun' : ∀ v ∈ run', mid ≤ v.state) : Ascending copies (run ++ run') :=
  List.pairwise_append.2 ⟨h, h', fun v hv w hw _ _ => (hrun v hv).trans (hrun' w hw)⟩

/-- Only the copies whose entries are visited matter. -/
theorem Ascending.mono (h : Ascending copies run)
    (hsub : ∀ g ∈ copies', (∃ v ∈ run, v.state = g.entry) → g ∈ copies) :
    Ascending copies' run := by
  refine List.Pairwise.imp_of_mem (fun {v w} hv hw h => ?_) h
  rintro ⟨g, hg, hstate⟩ ⟨g', hg', hstate'⟩
  exact h ⟨g, hsub g hg ⟨v, hv, hstate⟩, hstate⟩ ⟨g', hsub g' hg' ⟨w, hw, hstate'⟩, hstate'⟩

theorem Ascending.cons (h : Ascending copies run) (hrun : ∀ w ∈ run, v.state ≤ w.state) :
    Ascending copies (v :: run) :=
  List.pairwise_cons.2 ⟨fun w hw _ _ => hrun w hw, h⟩

theorem Ascending.concat (h : Ascending copies run) (hrun : ∀ w ∈ run, w.state ≤ v.state) :
    Ascending copies (run ++ [v]) :=
  h.append (List.pairwise_singleton _ _) hrun fun w hw => by rw [List.mem_singleton.1 hw]

theorem ascending_of_length_le_one (h : copies.length ≤ 1) (run : List Visit) :
    Ascending copies run := by
  apply List.pairwise_of_forall
  intro v w
  rintro ⟨g, hg, hv⟩ ⟨g', hg', hw⟩
  match copies, h with
  | [x], _ => rw [hv, hw, List.mem_singleton.1 hg, List.mem_singleton.1 hg']

theorem ascending_alt {count join : Nat} {start : Nat → Nat} {part : Nat → Region}
    (hn : (alt count start part join).Numbered lo hi)
    (hpart : ∀ i < count, ∀ ⦃lo hi run⦄, (part i).Numbered lo hi →
      (part i).Walk flags text s run t → Ascending (Group.copies (part i).spans index) run)
    (h : (alt count start part join).Walk flags text s run t) :
    Ascending (Group.copies (alt count start part join).spans index) run := by
  obtain ⟨i, hlt, run', h, rfl⟩ := h
  obtain ⟨base, rfl, hnums, rfl, rfl⟩ := hn
  obtain ⟨-, hstart, hnum, htop⟩ := part_bounds hnums hlt
  have hrun := h.state_mem (hnums i hlt).2
  have hall (v : Visit) (hv : v ∈ run' ++ [⟨base count, t.offset⟩]) :
      start i ≤ v.state ∧ (v.state < base (i + 1) ∨ v.state = base count) := by
    rcases List.mem_append.1 hv with hv | hv
    · have := hrun v hv
      omega
    · rw [List.mem_singleton.1 hv]
      exact ⟨by simp only; omega, .inr rfl⟩
  have hrun' := (((hpart i hlt (hnums i hlt).2 h).concat
    (v := ⟨base count, t.offset⟩) fun v hv => (hrun v hv).2.le.trans htop).cons
    (v := ⟨start i, s.offset⟩) fun v hv => (hall v hv).1)
  apply hrun'.mono
  rintro g hg ⟨v, hv, hstate⟩
  obtain ⟨j, hj, hg⟩ := List.mem_flatMap.1 (Group.mem_copies.1 hg)
  have hj := List.mem_range.1 hj
  have hspan := (hnums j hj).2.span_mem hg
  have hv : start i ≤ v.state ∧ (v.state < base (i + 1) ∨ v.state = base count) := by
    rcases List.mem_cons.1 hv with rfl | hv
    · exact ⟨le_rfl, .inl (by simp only; omega)⟩
    · exact hall v hv
  have := part_bounds hnums hj
  have hij : i = j := eq_of_numbered hnums v.state hlt hj (by omega) (by omega)
  exact Group.mem_copies.2 (hij ▸ hg)

/-- A block without a way back enters its body once at most. -/
theorem ascending_block {b : Block} {body : Region} (hn : (block b body).Numbered lo hi)
    (hagain : b.shape.again = false)
    (hr : ∀ ⦃lo hi s run t⦄, body.Numbered lo hi → body.Walk flags text s run t →
      Ascending (Group.copies body.spans index) run)
    (h : (block b body).Walk flags text s run t) :
    Ascending (Group.copies (block b body).spans index) run := by
  obtain ⟨run', h, rfl⟩ := h
  obtain ⟨rfl, hinner, hn, hnext, -⟩ := hn
  have hle := hn.le
  cases h with
  | again h => rw [hagain] at h; cases h
  | @leave _ _ lap h =>
    have hlap : Ascending (Group.copies body.spans index) lap ∧
        ∀ v ∈ lap, b.start ≤ v.state ∧ v.state ≤ b.finish := by
      cases h with
      | skip =>
        refine ⟨List.pairwise_singleton _ _, fun v hv => ?_⟩
        rw [List.mem_singleton.1 hv]
        exact ⟨by simp only; omega, le_rfl⟩
      | @through _ run' h =>
        have hrun := h.state_mem hn
        have hall (v : Visit) (hv : v ∈ run' ++ [⟨b.finish, t.offset⟩]) :
            b.inner ≤ v.state ∧ v.state ≤ b.finish := by
          rcases List.mem_append.1 hv with hv | hv
          · have := hrun v hv
            omega
          · rw [List.mem_singleton.1 hv]
            exact ⟨by simp only; omega, le_rfl⟩
        refine ⟨((hr hn h).concat fun v hv => (hrun v hv).2.le).cons
          fun v hv => (hall v hv).1, fun v hv => ?_⟩
        rcases List.mem_cons.1 hv with rfl | hv
        · exact ⟨by simp only; omega, by simp only; omega⟩
        · have := hall v hv
          omega
    refine (hlap.1.concat fun v hv => ?_).cons fun v hv => ?_
    · have := hlap.2 v hv
      simp only
      omega
    · rcases List.mem_append.1 hv with hv | hv
      · exact (hlap.2 v hv).1
      · rw [List.mem_singleton.1 hv]
        simp only
        omega

/-- Copies are entered in the order in which they were added, unless a loop holds several. -/
theorem Walk.ascending (hn : r.Numbered lo hi) (ho : r.Orderly index)
    (h : r.Walk flags text s run t) : Ascending (Group.copies r.spans index) run := by
  induction r generalizing s run t lo hi with
  | empty =>
    obtain ⟨rfl, -⟩ := h
    exact List.Pairwise.nil
  | edge =>
    obtain ⟨offset, -, rfl, -⟩ := h
    exact List.pairwise_singleton _ _
  | seq r r' ih ih' =>
    obtain ⟨run₁, m, run₂, h, h', rfl⟩ := h
    obtain ⟨mid, hn, hn'⟩ := hn
    have hrun := h.state_mem hn
    have hrun' := h'.state_mem hn'
    refine ((ih hn ho.1 h).mono ?_).append ((ih' hn' ho.2 h').mono ?_)
      (fun v hv => (hrun v hv).2.le) fun v hv => (hrun' v hv).1
    · rintro g hg ⟨v, hv, hstate⟩
      rw [spans, Group.copies_append] at hg
      apply (List.mem_append.1 hg).resolve_left
      intro hg
      have := hn'.span_mem (Group.mem_copies.1 hg)
      have := hrun v hv
      omega
    · rintro g hg ⟨v, hv, hstate⟩
      rw [spans, Group.copies_append] at hg
      apply (List.mem_append.1 hg).resolve_right
      intro hg
      have := hn.span_mem (Group.mem_copies.1 hg)
      have := hrun' v hv
      omega
  | alt count start part join ih =>
    exact ascending_alt hn (fun i hi _ _ _ hn h => ih i hn (ho i hi) h) h
  | block b body ih =>
    cases hagain : b.shape.again with
    | true => exact ascending_of_length_le_one (ho.2 hagain) _
    | false => exact ascending_block hn hagain (fun _ _ _ _ _ hn h => ih hn ho.1 h) h
  | capture i first last body ih =>
    obtain ⟨m, run', h, rfl, -⟩ := h
    obtain ⟨rfl, hn, -⟩ := hn
    have hle := hn.le
    have hrun := h.state_mem hn
    have hbody : Ascending (Group.copies (body.spans ++ [(i, ⟨first, last⟩)]) index) run' := by
      apply (ih hn ho.1 h).mono
      rintro g hg ⟨v, hv, hstate⟩
      rw [Group.copies_append] at hg
      apply (List.mem_append.1 hg).resolve_left
      intro hg
      cases List.mem_singleton.1 (Group.mem_copies.1 hg)
      have := hrun v hv
      simp only at hstate
      omega
    refine (hbody.concat fun v hv => (hrun v hv).2.le).cons fun v hv => ?_
    rcases List.mem_append.1 hv with hv | hv
    · have := hrun v hv
      simp only
      omega
    · rw [List.mem_singleton.1 hv]
      simp only
      omega

/-- Of two copies the later one has the later entry, unless one holds the other. -/
theorem Numbered.copies_descending (hn : r.Numbered lo hi) (ho : r.Orderly index) :
    (Group.copies r.spans index).Pairwise fun g g' => g'.entry < g.entry := by
  induction r generalizing lo hi with
  | empty | edge => exact List.Pairwise.nil
  | seq r r' ih ih' =>
    obtain ⟨mid, hn, hn'⟩ := hn
    rw [spans, Group.copies_append, List.pairwise_append]
    refine ⟨ih' hn' ho.2, ih hn ho.1, fun g hg g' hg' => ?_⟩
    have := hn'.span_mem (Group.mem_copies.1 hg)
    have := hn.span_mem (Group.mem_copies.1 hg')
    omega
  | alt count start part join ih =>
    obtain ⟨base, rfl, hnums, -, -⟩ := hn
    have hprefix (n : Nat) (hn : n ≤ count) :
        (Group.copies ((List.range n).flatMap fun i => (part i).spans) index).Pairwise
          fun g g' => g'.entry < g.entry := by
      induction n with
      | zero => exact List.Pairwise.nil
      | succ n ih' =>
        rw [List.range_succ, List.flatMap_append, Group.copies_append, List.pairwise_append,
          List.flatMap_singleton]
        refine ⟨ih n (hnums n hn).2 (ho n hn), ih' (Nat.le_of_succ_le hn), fun g hg g' hg' => ?_⟩
        obtain ⟨j, hj, hg'⟩ := List.mem_flatMap.1 (Group.mem_copies.1 hg')
        have hj := List.mem_range.1 hj
        have := (hnums n hn).2.span_mem (Group.mem_copies.1 hg)
        have := (hnums j (hj.trans hn)).2.span_mem hg'
        have := base_succ_le_of_numbered hnums hj (Nat.le_of_succ_le hn)
        omega
    exact hprefix count le_rfl
  | block b body ih => exact ih hn.2.2.1 ho.1
  | capture i first last body ih =>
    obtain ⟨rfl, hn, -⟩ := hn
    rw [spans, Group.copies_append]
    by_cases hi : i = index
    · rw [ho.2 hi, List.append_nil]
      simp [Group.copies, hi]
    · simpa [Group.copies, hi] using ih hn ho.1

end PatternAutomata.Region
