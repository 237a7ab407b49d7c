import SolPlan.Constraint

/-!
# Comparators admit ranges

Only the three numbers of a version count for a comparator, and what it admits has no gaps in their
order: a version between two that are admitted is admitted. So is a list of comparators, and a
constraint without alternatives. Alternatives leave gaps between them.

Results:
* **`Comparator.admits_between`** and `Constraint.admits_between`: no gaps;
* `Constraint.admits_iff_of_exactPin?`: a constraint that pins a version admits it, with any build
  metadata, and nothing else;
* `Constraint.admits_of_exactPin`: a constraint that pins a version tells what all others say of
  what it admits.
-/

namespace SolPlan

namespace Version

/-- The numbers of one version do not come after those of another. -/
def NumbersLE (u v : Version) : Prop :=
  u.major < v.major ∨ u.major = v.major ∧
    (u.minor < v.minor ∨ u.minor = v.minor ∧ u.patch ≤ v.patch)

theorem numbersLE_of_compare {u v : Version} (h : (compare u v).isLE = true) : NumbersLE u v := by
  have hlex : compare u v = (compare u.major v.major).then ((compare u.minor v.minor).then
      ((compare u.patch v.patch).then (compareLex (compareOn isRelease)
        (compareLex (compareOn pre) (compareOn build)) u v))) := rfl
  rw [hlex] at h
  unfold NumbersLE
  rcases Nat.lt_trichotomy u.major v.major with ha | ha | ha
  · exact Or.inl ha
  · rw [Nat.compare_eq_eq.mpr ha, Ordering.eq_then] at h
    rcases Nat.lt_trichotomy u.minor v.minor with hb | hb | hb
    · exact Or.inr ⟨ha, Or.inl hb⟩
    · rw [Nat.compare_eq_eq.mpr hb, Ordering.eq_then] at h
      refine Or.inr ⟨ha, Or.inr ⟨hb, Nat.not_lt.mp fun hc => ?_⟩⟩
      rw [Nat.compare_eq_gt.mpr hc] at h
      cases h
    · rw [Nat.compare_eq_gt.mpr hb] at h
      cases h
  · rw [Nat.compare_eq_gt.mpr ha] at h
    cases h

end Version

open Version

namespace OpenVersion

variable {o : OpenVersion} {u v : Version}

/-- What is less than an open version is closed to below. -/
theorem against_lt_of_le (h : NumbersLE u v) (hv : o.against v = .lt) : o.against u = .lt := by
  unfold NumbersLE at h
  cases o <;>
    simp only [against, Ordering.then_eq_lt, Ordering.then_eq_eq, Nat.compare_eq_lt,
      Nat.compare_eq_eq] at hv ⊢ <;>
    omega

/-- What is greater than an open version is closed to above. -/
theorem against_gt_of_le (h : NumbersLE u v) (hu : o.against u = .gt) : o.against v = .gt := by
  unfold NumbersLE at h
  cases o <;>
    simp only [against, Ordering.then_eq_gt, Ordering.then_eq_eq, Nat.compare_eq_gt,
      Nat.compare_eq_eq] at hu ⊢ <;>
    omega

end OpenVersion

namespace Comparator

variable {c : Comparator} {u v x : Version}

theorem tildeAdmits_between {o : OpenVersion} (h : NumbersLE u v) (h' : NumbersLE v x)
    (hu : tildeAdmits u o = true) (hx : tildeAdmits x o = true) : tildeAdmits v o = true := by
  unfold NumbersLE at h h'
  cases o <;>
    simp only [tildeAdmits, Bool.and_eq_true, beq_iff_eq, decide_eq_true_eq] at hu hx ⊢ <;>
    omega

theorem caretAdmits_between {o : OpenVersion} (h : NumbersLE u v) (h' : NumbersLE v x)
    (hu : caretAdmits u o = true) (hx : caretAdmits x o = true) : caretAdmits v o = true := by
  unfold NumbersLE at h h'
  cases o with
  | major a =>
    simp only [caretAdmits, beq_iff_eq] at hu hx ⊢
    omega
  | minor a b =>
    simp only [caretAdmits, Bool.and_eq_true, beq_iff_eq] at hu hx ⊢
    by_cases ha : a = 0
    · simp only [if_pos ha, beq_iff_eq] at hu hx ⊢
      omega
    · simp only [if_neg ha, decide_eq_true_eq] at hu hx ⊢
      omega
  | patch a b c =>
    simp only [caretAdmits, Bool.and_eq_true, beq_iff_eq] at hu hx ⊢
    -- the first part that is not zero says which parts may grow
    by_cases ha : a ≠ 0
    · simp only [if_pos ha, Bool.or_eq_true, Bool.and_eq_true, beq_iff_eq,
        decide_eq_true_eq] at hu hx ⊢
      omega
    · by_cases hb : b ≠ 0
      · simp only [if_neg ha, if_pos hb, Bool.and_eq_true, beq_iff_eq,
          decide_eq_true_eq] at hu hx ⊢
        omega
      · simp only [if_neg ha, if_neg hb, Bool.and_eq_true, beq_iff_eq] at hu hx ⊢
        omega

/-- **What a comparator admits has no gaps.** -/
theorem admits_between (h : NumbersLE u v) (h' : NumbersLE v x) (hu : c.admits u = true)
    (hx : c.admits x = true) : c.admits v = true := by
  obtain ⟨op, o⟩ := c
  have hlt : o.against x = .lt → o.against v = .lt := OpenVersion.against_lt_of_le h'
  have hlt' : o.against v = .lt → o.against u = .lt := OpenVersion.against_lt_of_le h
  have hgt : o.against u = .gt → o.against v = .gt := OpenVersion.against_gt_of_le h
  have hgt' : o.against v = .gt → o.against x = .gt := OpenVersion.against_gt_of_le h'
  cases op with
  | tilde => exact tildeAdmits_between h h' hu hx
  | caret => exact caretAdmits_between h h' hu hx
  | exact =>
    simp only [admits, beq_iff_eq] at hu hx ⊢
    cases hv : o.against v with
    | eq => rfl
    | lt => rw [hlt' hv] at hu; cases hu
    | gt => rw [hgt' hv] at hx; cases hx
  | greater =>
    simp only [admits, beq_iff_eq] at hu ⊢
    exact hgt hu
  | less =>
    simp only [admits, beq_iff_eq] at hx ⊢
    exact hlt hx
  | greaterEq =>
    simp only [admits, bne_iff_ne] at hu ⊢
    exact fun hv => hu (hlt' hv)
  | lessEq =>
    simp only [admits, bne_iff_ne] at hx ⊢
    exact fun hv => hx (hgt' hv)

end Comparator

namespace Constraint

variable {c : Constraint} {u v x : Version}

/-- The constraint has at most one alternative. -/
def SingleRange (c : Constraint) : Prop := c.alternatives.length ≤ 1

/-- What a constraint without alternatives admits has no gaps between releases. -/
theorem admits_between (hc : c.SingleRange) (hv : v.isRelease = true) (h : NumbersLE u v)
    (h' : NumbersLE v x) (hu : c.admits u = true) (hx : c.admits x = true) :
    c.admits v = true := by
  unfold admits at hu hx ⊢
  unfold SingleRange at hc
  simp only [Bool.and_eq_true, List.any_eq_true] at hu hx ⊢
  obtain ⟨-, range, hrange, hu⟩ := hu
  obtain ⟨-, range', hrange', hx⟩ := hx
  have hsame : range = range' := by
    obtain hnil | ⟨only, honly⟩ : c.alternatives = [] ∨ ∃ only, c.alternatives = [only] := by
      rwa [Nat.le_one_iff_eq_zero_or_eq_one, List.length_eq_zero_iff, List.length_eq_one_iff] at hc
    · rw [hnil] at hrange
      cases hrange
    · rw [honly, List.mem_singleton] at hrange hrange'
      rw [hrange, hrange']
  subst hsame
  refine ⟨hv, range, hrange, ?_⟩
  rw [List.all_eq_true] at hu hx ⊢
  exact fun comparator hmem =>
    Comparator.admits_between h h' (hu comparator hmem) (hx comparator hmem)

/-- Of releases with the same numbers, a constraint admits all or none. -/
theorem admits_of_numbers (h : NumbersLE u v) (h' : NumbersLE v u) (hv : v.isRelease = true)
    (hu : c.admits u = true) : c.admits v = true := by
  unfold admits at hu ⊢
  simp only [Bool.and_eq_true, List.any_eq_true] at hu ⊢
  obtain ⟨-, range, hrange, hu⟩ := hu
  refine ⟨hv, range, hrange, ?_⟩
  rw [List.all_eq_true] at hu ⊢
  exact fun comparator hmem =>
    Comparator.admits_between h h' (hu comparator hmem) (hu comparator hmem)

/-- A pin admits one version, with any build metadata. -/
theorem admits_iff_of_exactPin? {pin : Version} (hc : c.exactPin? = some pin) :
    c.admits v = true ↔ v.stripBuild = pin := by
  unfold exactPin? at hc
  split at hc
  · rename_i a b d halternatives
    cases hc
    unfold admits
    rw [halternatives]
    simp only [List.any_cons, List.any_nil, List.all_cons, List.all_nil, Comparator.admits,
      OpenVersion.against, Bool.and_true, Bool.or_false, Bool.and_eq_true, beq_iff_eq,
      Ordering.then_eq_eq, Nat.compare_eq_eq, isRelease, List.isEmpty_iff, stripBuild, release,
      Version.mk.injEq]
    exact ⟨fun ⟨hpre, ⟨ha, hb⟩, hd⟩ => ⟨ha, hb, hd, hpre, trivial⟩,
      fun ⟨ha, hb, hd, hpre, _⟩ => ⟨hpre, ⟨ha, hb⟩, hd⟩⟩
  · cases hc

/-- What meets a pin has its numbers. -/
theorem numbersLE_of_exactPin (hc : c.isExactPin = true) (hu : c.admits u = true)
    (hv : c.admits v = true) : NumbersLE u v := by
  unfold isExactPin exactPin? at hc
  split at hc
  · rename_i a b d halternatives
    unfold admits at hu hv
    rw [halternatives] at hu hv
    simp only [List.any_cons, List.any_nil, List.all_cons, List.all_nil, Comparator.admits,
      OpenVersion.against, Bool.and_true, Bool.or_false, Bool.and_eq_true, beq_iff_eq,
      Ordering.then_eq_eq, Nat.compare_eq_eq] at hu hv
    unfold NumbersLE
    omega
  · cases hc

/-- Whatever a constraint admits beside a pinned version, it admits the pinned version too. -/
theorem admits_of_exactPin {pin : Constraint} (hpin : pin.isExactPin = true)
    (hu : pin.admits u = true) (hv : pin.admits v = true) (hcu : c.admits u = true) :
    c.admits v = true := by
  have hrelease : v.isRelease = true := by
    unfold admits at hv
    exact (Bool.and_eq_true_iff.mp hv).1
  exact admits_of_numbers (numbersLE_of_exactPin hpin hu hv) (numbersLE_of_exactPin hpin hv hu)
    hrelease hcu

end Constraint

end SolPlan
