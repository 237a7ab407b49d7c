import SolPlan.Proofs.Constraint.Connectives

/-!
# Constraints and pre-releases

A comparator in general (`Bound`) may be set against a pre-release, and then compares that part too.
A list of them has a rule of its own (`Bound.meets`): a pre-release meets it only if some comparator
names a pre-release of the same three numbers. So `>=0.8.1-b` is met by `0.8.1-c` and by `0.8.2`,
but not by `0.8.2-c`.

What a written version says of a pre-release begins with a hyphen. No token holds one, so the
comparators of a constraint name no pre-release, and what is left of the rule is that releases
alone are admitted, by their numbers.

Results:
* `Bound.isMetBy_ofComparator`: a release meets a comparator as in general;
* **`admits_eq_any_meets`**: what a constraint admits, by the general rule;
* `hyphen_not_mem`: no hyphen stands in a constraint.
-/

namespace SolPlan

/-- A comparator in general: its version may be a pre-release. -/
structure Bound extends Comparator where
  pre : List PreIdentifier

namespace Bound

/-- The order of the pre-releases of the same numbers. The release itself is the greatest. -/
def comparePre (a b : List PreIdentifier) : Ordering :=
  (compare a.isEmpty b.isEmpty).then (compare a b)

/-- The given parts and the pre-release are those of the version. -/
def equals (b : Bound) (v : Version) : Bool := b.target.against v == .eq && v.pre == b.pre

/-- How the version compares in the first part that differs. Nothing counts behind an open part. -/
def order (b : Bound) (v : Version) : Ordering :=
  match b.target with
  | .patch _ _ _ => (b.target.against v).then (comparePre v.pre b.pre)
  | _ => b.target.against v

/-- The patch may grow, and so may the pre-release of the same patch. -/
def mayGrow (b : Bound) (patch : Nat) (v : Version) : Bool :=
  if v.patch = patch then (comparePre v.pre b.pre).isGE else patch < v.patch

/-- `~`: the given parts, and a patch that may grow. -/
def tilde (b : Bound) (v : Version) : Bool :=
  match b.target with
  | .patch major minor patch => v.major == major && v.minor == minor && b.mayGrow patch v
  | o => o.against v == .eq && (comparePre v.pre b.pre).isGE

/-- `^`: the parts up to the first that is not zero, and what follows may grow. -/
def caret (b : Bound) (v : Version) : Bool :=
  match b.target with
  | .major major => v.major == major
  | .minor major minor =>
    v.major == major && if 0 < major then minor ≤ v.minor else v.minor == minor
  | .patch major minor patch =>
    v.major == major &&
      if 0 < major then if v.minor = minor then b.mayGrow patch v else minor < v.minor
      else if 0 < minor then v.minor == minor && b.mayGrow patch v
      else v.minor == minor && v.patch == patch && (comparePre v.pre b.pre).isGE

/-- Is the comparator met, taken by itself? -/
def isMetBy (b : Bound) (v : Version) : Bool :=
  match b.op with
  | .exact => b.equals v
  | .greater => b.order v == .gt
  | .greaterEq => b.equals v || b.order v == .gt
  | .less => b.order v == .lt
  | .lessEq => b.equals v || b.order v == .lt
  | .tilde => b.tilde v
  | .caret => b.caret v

/-- Does the comparator name a pre-release of the numbers of the version? -/
def names (b : Bound) (v : Version) : Bool :=
  b.target == .patch v.major v.minor v.patch && !b.pre.isEmpty

/-- Does the version meet all comparators? One of them must name a pre-release of its numbers, if
it is a pre-release. -/
def meets (bounds : List Bound) (v : Version) : Bool :=
  bounds.all (·.isMetBy v) && (v.isRelease || bounds.any (·.names v))

/-- The comparator that names no pre-release. -/
def ofComparator (c : Comparator) : Bound := { c with pre := [] }

example : meets [⟨⟨.greaterEq, .patch 0 8 1⟩, [⟨['b']⟩]⟩] ⟨0, 8, 1, [⟨['c']⟩], []⟩ = true ∧
    meets [⟨⟨.greaterEq, .patch 0 8 1⟩, [⟨['b']⟩]⟩] ⟨0, 8, 2, [⟨['c']⟩], []⟩ = false := by decide

variable {c : Comparator} {o : OpenVersion} {v : Version}

/-! ## Releases -/

theorem comparePre_nil : comparePre [] [] = .eq := rfl

theorem equals_ofComparator (hpre : v.pre = []) :
    (ofComparator c).equals v = (c.target.against v == .eq) := by
  simp [equals, ofComparator, hpre]

theorem order_ofComparator (hpre : v.pre = []) :
    (ofComparator c).order v = c.target.against v := by
  obtain ⟨op, o⟩ := c
  cases o <;> simp [order, ofComparator, hpre, comparePre_nil]

theorem mayGrow_ofComparator (hpre : v.pre = []) (patch : Nat) :
    (ofComparator c).mayGrow patch v = decide (patch ≤ v.patch) := by
  unfold mayGrow ofComparator
  rw [hpre, comparePre_nil]
  by_cases hpatch : v.patch = patch
  · simp [hpatch]
  · rw [if_neg hpatch]
    exact decide_eq_decide.mpr (by omega)

theorem tilde_ofComparator (hpre : v.pre = []) :
    (ofComparator c).tilde v = Comparator.tildeAdmits v c.target := by
  have hgrow := mayGrow_ofComparator (c := c) hpre
  obtain ⟨op, o⟩ := c
  unfold ofComparator at hgrow ⊢
  rw [Bool.eq_iff_iff]
  cases o with
  | major a =>
    simp [tilde, Comparator.tildeAdmits, OpenVersion.against, hpre, comparePre_nil]
  | minor a b =>
    simp [tilde, Comparator.tildeAdmits, OpenVersion.against, hpre, comparePre_nil,
      Ordering.then_eq_eq]
  | patch a b d => simp [tilde, Comparator.tildeAdmits, hgrow]

theorem caret_ofComparator (hpre : v.pre = []) :
    (ofComparator c).caret v = Comparator.caretAdmits v c.target := by
  have hgrow := mayGrow_ofComparator (c := c) hpre
  obtain ⟨op, o⟩ := c
  unfold ofComparator at hgrow ⊢
  rw [Bool.eq_iff_iff]
  cases o with
  | major a => rfl
  | minor a b =>
    rcases Nat.eq_zero_or_pos a with rfl | ha
    · simp [caret, Comparator.caretAdmits]
    · simp [caret, Comparator.caretAdmits, ha, Nat.ne_of_gt ha]
  | patch a b d =>
    rcases Nat.eq_zero_or_pos a with rfl | ha
    · rcases Nat.eq_zero_or_pos b with rfl | hb
      · simp [caret, Comparator.caretAdmits, hpre, comparePre_nil]
      · simp [caret, Comparator.caretAdmits, hgrow, hb, Nat.ne_of_gt hb]
    · by_cases hminor : v.minor = b
      · simp [caret, Comparator.caretAdmits, hgrow, ha, Nat.ne_of_gt ha, hminor]
      · simp [caret, Comparator.caretAdmits, ha, Nat.ne_of_gt ha, hminor]

/-- **A release meets a comparator as in general**, by its numbers. -/
theorem isMetBy_ofComparator (c : Comparator) (hpre : v.pre = []) :
    (ofComparator c).isMetBy v = c.admits v := by
  have hequals := equals_ofComparator (c := c) hpre
  have horder := order_ofComparator (c := c) hpre
  obtain ⟨op, o⟩ := c
  unfold isMetBy Comparator.admits
  cases op with
  | exact => exact hequals
  | greater => exact congrArg (· == .gt) horder
  | less => exact congrArg (· == .lt) horder
  | tilde => exact tilde_ofComparator hpre
  | caret => exact caret_ofComparator hpre
  | greaterEq =>
    simp only [ofComparator] at hequals horder ⊢
    rw [hequals, horder]
    cases o.against v <;> rfl
  | lessEq =>
    simp only [ofComparator] at hequals horder ⊢
    rw [hequals, horder]
    cases o.against v <;> rfl

/-- Comparators that name no pre-release are met by releases only, one by one. -/
theorem meets_map_ofComparator (cs : List Comparator) (v : Version) :
    meets (cs.map ofComparator) v = (v.isRelease && cs.all (·.admits v)) := by
  have hnames : cs.any ((·.names v) ∘ ofComparator) = false :=
    List.any_eq_false.mpr fun c _ => by simp [names, ofComparator]
  unfold meets
  rw [List.all_map, List.any_map, hnames, Bool.or_false, Bool.and_comm]
  cases hrelease : v.isRelease with
  | false => rfl
  | true =>
    have hpre : v.pre = [] := List.isEmpty_iff.mp hrelease
    congr 2
    funext c
    exact isMetBy_ofComparator c hpre

end Bound

namespace Constraint

/-- **What a constraint admits, by the general rule**: what meets the comparators of an
alternative, none of which names a pre-release. -/
theorem admits_eq_any_meets (c : Constraint) (v : Version) :
    c.admits v = c.alternatives.any fun cs => Bound.meets (cs.map Bound.ofComparator) v := by
  simp only [Bound.meets_map_ofComparator]
  unfold admits
  cases v.isRelease <;> simp

/-- No hyphen stands in a constraint, so none of its comparators names a pre-release. -/
theorem hyphen_not_mem {t : Text} {c : Constraint} (h : ofText t = .ok c) :
    '-' ∉ c.expression := by
  obtain ⟨-, alternatives, hreads⟩ := ofText_eq_ok_iff.mp h
  exact hreads.segments.not_mem (by decide) (by decide)

end Constraint

end SolPlan
