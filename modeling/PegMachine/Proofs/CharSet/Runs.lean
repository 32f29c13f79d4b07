import PegMachine.CharSet.Basic

/-!
# The maximal runs of a set

A set of code points is listed, shown and compiled by its runs of successive members.  These are
maximal: a run neither overlaps the next one nor touches it, but has a point in between that is no
member.

* `MaximalRuns` — the pairs of a list are in order, with gaps in between, and hold the members.
  Such a list is built up from the back: what comes after a run is the list for the members that
  are ahead (`MaximalRuns.cons`).
* `MaximalRuns.mem_iff_isMaximalRun` — the pairs are the maximal runs and nothing else.  So there is
  one such list only for a set: `MaximalRuns.unique`.
* `CharSet.maximalRuns_ranges` — what the toggles of a set are paired up to is this list.
-/

set_option autoImplicit false

namespace PegMachine

variable {member later : Nat → Bool} {rs rs' : List (Nat × Nat)} {r r' : Nat × Nat} {lo hi : Nat}

/-! ## Lists of runs -/

/-- All points from `lo` to `hi` are members, and neither the one in front of them nor the one
behind them is. -/
structure IsMaximalRun (member : Nat → Bool) (lo hi : Nat) : Prop where
  le : lo ≤ hi
  members : ∀ c, lo ≤ c → c ≤ hi → member c = true
  front : ∀ c, c + 1 = lo → member c = false
  behind : member (hi + 1) = false

/-- The pairs are in order, with at least one point between a pair and the next one, and the members
are what lies in one of the pairs. -/
structure MaximalRuns (member : Nat → Bool) (rs : List (Nat × Nat)) : Prop where
  le : ∀ r ∈ rs, r.1 ≤ r.2
  apart : rs.Pairwise fun r r' => r.2 + 2 ≤ r'.1
  mem_iff : ∀ c, member c = true ↔ ∃ r ∈ rs, r.1 ≤ c ∧ c ≤ r.2

namespace MaximalRuns

theorem nil (h : ∀ c, member c = false) : MaximalRuns member [] where
  le := List.forall_mem_nil _
  apart := .nil
  mem_iff c := by simp [h c]

/-- One more run in front of all others. -/
theorem cons (h : MaximalRuns later rs) (hle : r.1 ≤ r.2) (hgap : ∀ c, later c = true → r.2 + 2 ≤ c)
    (hmem : ∀ c, member c = true ↔ (r.1 ≤ c ∧ c ≤ r.2) ∨ later c = true) :
    MaximalRuns member (r :: rs) where
  le := List.forall_mem_cons.2 ⟨hle, h.le⟩
  apart := List.pairwise_cons.2 ⟨fun r' hr' =>
    hgap r'.1 ((h.mem_iff r'.1).2 ⟨r', hr', Nat.le_refl _, h.le r' hr'⟩), h.apart⟩
  mem_iff c := by
    simp only [hmem, h.mem_iff, List.mem_cons, or_and_right, exists_or, exists_eq_left]

theorem ascending (h : MaximalRuns member rs) : rs.Pairwise fun r r' => r.2 < r'.1 :=
  h.apart.imp fun hlt => by omega

/-- Of two different runs, one comes before the other. -/
theorem apart_of_mem (h : MaximalRuns member rs) (hr : r ∈ rs) (hr' : r' ∈ rs) :
    r = r' ∨ r.2 + 2 ≤ r'.1 ∨ r'.2 + 2 ≤ r.1 := by
  have hapart := List.pairwise_iff_getElem.1 h.apart
  obtain ⟨i, hilt, rfl⟩ := List.getElem_of_mem hr
  obtain ⟨j, hjlt, rfl⟩ := List.getElem_of_mem hr'
  rcases Nat.lt_trichotomy i j with hlt | rfl | hlt
  · exact .inr (.inl (hapart i j hilt hjlt hlt))
  · exact .inl rfl
  · exact .inr (.inr (hapart j i hjlt hilt hlt))

/-- A point that a run touches is no member. -/
theorem eq_false_of_touches {c : Nat} (h : MaximalRuns member rs) (hr : r ∈ rs)
    (hc : c + 1 = r.1 ∨ c = r.2 + 1) : member c = false := by
  have hle := h.le r hr
  refine Bool.eq_false_iff.2 fun hmem => ?_
  obtain ⟨r', hr', hlo, hhi⟩ := (h.mem_iff c).1 hmem
  rcases h.apart_of_mem hr hr' with rfl | hlt | hlt <;> omega

theorem isMaximalRun_of_mem (h : MaximalRuns member rs) (hr : r ∈ rs) :
    IsMaximalRun member r.1 r.2 where
  le := h.le r hr
  members c hlo hhi := (h.mem_iff c).2 ⟨r, hr, hlo, hhi⟩
  front _ hc := h.eq_false_of_touches hr (.inl hc)
  behind := h.eq_false_of_touches hr (.inr rfl)

end MaximalRuns

namespace IsMaximalRun

variable {lo' hi' c : Nat}

/-- A maximal run holds all of another one that it has a member in common with. -/
theorem bounds_of_mem (h : IsMaximalRun member lo hi) (h' : IsMaximalRun member lo' hi')
    (hc : lo ≤ c ∧ c ≤ hi) (hc' : lo' ≤ c ∧ c ≤ hi') : lo ≤ lo' ∧ hi' ≤ hi := by
  constructor
  · refine Nat.le_of_not_lt fun hlt => ?_
    have hfront := h.front (lo - 1) (by omega)
    rw [h'.members (lo - 1) (by omega) (by omega)] at hfront
    cases hfront
  · refine Nat.le_of_not_lt fun hlt => ?_
    have hbehind := h.behind
    rw [h'.members (hi + 1) (by omega) (by omega)] at hbehind
    cases hbehind

/-- Maximal runs that have a member in common are the same. -/
theorem eq_of_mem (h : IsMaximalRun member lo hi) (h' : IsMaximalRun member lo' hi')
    (hc : lo ≤ c ∧ c ≤ hi) (hc' : lo' ≤ c ∧ c ≤ hi') : lo = lo' ∧ hi = hi' := by
  obtain ⟨hlo, hhi⟩ := h.bounds_of_mem h' hc hc'
  obtain ⟨hlo', hhi'⟩ := h'.bounds_of_mem h hc' hc
  exact ⟨Nat.le_antisymm hlo hlo', Nat.le_antisymm hhi' hhi⟩

end IsMaximalRun

namespace MaximalRuns

/-- **The pairs are the maximal runs.** -/
theorem mem_iff_isMaximalRun (h : MaximalRuns member rs) :
    (lo, hi) ∈ rs ↔ IsMaximalRun member lo hi := by
  refine ⟨h.isMaximalRun_of_mem, fun hrun => ?_⟩
  obtain ⟨r, hr, hlo⟩ := (h.mem_iff lo).1 (hrun.members lo (Nat.le_refl lo) hrun.le)
  obtain ⟨rfl, rfl⟩ := hrun.eq_of_mem (h.isMaximalRun_of_mem hr) ⟨Nat.le_refl lo, hrun.le⟩ hlo
  exact hr

theorem nodup (h : MaximalRuns member rs) : rs.Nodup := by
  refine List.nodup_iff_pairwise_ne.2 (h.ascending.imp_of_mem fun {r r'} hr _ hlt heq => ?_)
  have hle := h.le r hr
  rw [heq] at hle hlt
  omega

/-- There is only one list of the maximal runs of a set. -/
theorem unique (h : MaximalRuns member rs) (h' : MaximalRuns member rs') : rs = rs' := by
  have hperm : rs.Perm rs' := (List.perm_ext_iff_of_nodup h.nodup h'.nodup).2 fun (lo, hi) =>
    h.mem_iff_isMaximalRun.trans h'.mem_iff_isMaximalRun.symm
  refine hperm.eq_of_pairwise (fun r r' hr hr' hlt hlt' => ?_) h.ascending h'.ascending
  have := h.le r hr
  have := h'.le r' hr'
  omega

end MaximalRuns

/-! ## The runs of a toggle list -/

namespace CharSet

theorem maximalRuns_runs : ∀ {ts : List Nat}, ts.Pairwise (· < ·) → flipped false ts = false →
    MaximalRuns (inside false ts) (runs ts)
  | [], _, _ => .nil fun _ => rfl
  | [t], _, hf => by cases hf
  | lo :: past :: rest, hts, hf => by
    have hlt : lo < past := List.rel_of_pairwise_cons hts (by simp)
    have hrest := maximalRuns_runs hts.of_cons.of_cons hf
    -- the next run starts at a toggle, and all of them are behind `past`
    have hgap : ∀ c, inside false rest c = true → past < c := by
      intro c hc
      refine Nat.lt_of_not_le fun hle => ?_
      rw [inside_of_lt fun u hu =>
        Nat.lt_of_le_of_lt hle (List.rel_of_pairwise_cons hts.of_cons hu)] at hc
      cases hc
    refine hrest.cons (Nat.le_sub_one_of_lt hlt) (fun c hc => ?_) fun c => ?_
    · have := hgap c hc
      show past - 1 + 2 ≤ c
      omega
    · simp only [inside, Bool.not_false, Bool.not_true]
      by_cases h1 : c < lo
      · rw [if_pos h1]
        refine iff_of_false Bool.false_ne_true ?_
        rintro (h | h)
        · omega
        · have := hgap c h
          omega
      · rw [if_neg h1]
        by_cases h2 : c < past
        · rw [if_pos h2]
          exact iff_of_true rfl (.inl (by omega))
        · rw [if_neg h2, or_iff_right (by omega)]

theorem maximalRuns_ranges (s : CharSet) : MaximalRuns s.contains s.ranges :=
  maximalRuns_runs s.ascending s.closed

end CharSet
end PegMachine
