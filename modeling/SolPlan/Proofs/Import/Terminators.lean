import SolPlan.Proofs.Import.Extraction

/-!
# Statements and what stands behind them

A statement should end at its first `;` (`Terminated`), and what stands behind it in the line should
be read on its own (`Cuts`). Lines are taken as a whole, though: a statement keeps all that stands
behind its first `;`, be it a comment or a further import.

Results:
* `statements_untilEnd`: what is found in lines up to their first `;` is what is found in them, each
  statement up to its first `;`;
* **`ofText_ends_iff`**: the statements of a text end at their first `;`, and are those that
  should be found, exactly if no line in which one ends goes on behind its `;` (`Tidy`);
* `not_terminated`: a further import in the line of an import is no statement.
-/

namespace SolPlan

namespace ImportLines

variable {lines front : List Text} {groups : List (List Text)} {t s last : Text}

/-- The text up to its first `;`. -/
def untilEnd : Text → Text
  | [] => []
  | c :: t => if c = ';' then [c] else c :: untilEnd t

/-- The text, cut behind each `;`. -/
def parts : Text → List Text
  | [] => [[]]
  | c :: t => if c = ';' then [c] :: parts t else (parts t).modifyHead (c :: ·)

/-- The text holds one `;`, at its end. -/
def Terminated (t : Text) : Prop := ∃ body, t = body ++ [';'] ∧ ';' ∉ body

/-- The lines in which statements end do not go on behind the first `;`. -/
def Tidy (lines : List Text) : Prop :=
  ∀ groups, Reads lines groups → ∀ group ∈ groups, ∀ last ∈ group.getLast?, Terminated last

/-- The statements that should be found: each ends at its first `;`, and the parts of the line
behind it are lines of their own. -/
inductive Cuts : List Text → List Text → Prop
  | nil : Cuts [] []
  | skip {line : Text} {lines found : List Text} : begins line = false → Cuts lines found →
      Cuts (line :: lines) found
  | take {front lines found : List Text} {piece behind : Text} :
      IsGroup (front ++ [piece ++ ';' :: behind]) → ';' ∉ piece →
      Cuts ((parts behind).map Text.trim ++ lines) found →
      Cuts (front ++ (piece ++ ';' :: behind) :: lines)
        (gather (front ++ [piece ++ [';']]) :: found)

/-! ## Up to the first `;` -/

theorem untilEnd_append (h : ';' ∉ s) (t : Text) : untilEnd (s ++ t) = s ++ untilEnd t := by
  induction s with
  | nil => rfl
  | cons c s ih =>
    obtain ⟨hc, hs⟩ := not_or.mp (mt List.mem_cons.mpr h)
    rw [List.cons_append, untilEnd, if_neg (Ne.symm hc), ih hs, List.cons_append]

@[simp] theorem untilEnd_of_not_mem (h : ';' ∉ t) : untilEnd t = t := by
  simpa [untilEnd] using untilEnd_append h []

@[simp] theorem mem_untilEnd : ';' ∈ untilEnd t ↔ ';' ∈ t := by
  induction t with
  | nil => rfl
  | cons c t ih =>
    rw [untilEnd]
    by_cases hc : c = ';'
    · simp [hc]
    · simp [hc, Ne.symm hc, ih]

theorem exists_first (h : ';' ∈ t) : ∃ front behind, t = front ++ ';' :: behind ∧ ';' ∉ front := by
  cases hcut : Text.cut? ';' t with
  | none => exact absurd h (Text.cut?_eq_none_iff.mp hcut)
  | some cut => exact ⟨cut.1, cut.2, Text.cut?_eq_some_iff.mp hcut⟩

theorem terminated_iff : Terminated t ↔ ';' ∈ t ∧ untilEnd t = t := by
  constructor
  · rintro ⟨body, rfl, hbody⟩
    exact ⟨by simp, untilEnd_append hbody _⟩
  · rintro ⟨hmem, hend⟩
    obtain ⟨body, behind, rfl, hbody⟩ := exists_first hmem
    rw [untilEnd_append hbody] at hend
    exact ⟨body, hend.symm, hbody⟩

/-- A word without `;` is found in front of a text exactly if it is found up to the first one. -/
theorem after?_untilEnd {word : Text} (h : ';' ∉ word) :
    Text.after? word (untilEnd t) = (Text.after? word t).map untilEnd := by
  induction word generalizing t with
  | nil => rfl
  | cons c word ih =>
    obtain ⟨hc, hword⟩ := not_or.mp (mt List.mem_cons.mpr h)
    cases t with
    | nil => rfl
    | cons d t =>
      rw [untilEnd]
      by_cases hd : d = ';'
      · subst hd
        simp [Text.after?, Ne.symm hc]
      · by_cases hsame : c = d
        · simp [Text.after?, hd, hsame, ih hword]
        · simp [Text.after?, hd, hsame]

@[simp] theorem begins_untilEnd (t : Text) : begins (untilEnd t) = begins t := by
  unfold begins
  rw [after?_untilEnd (by decide)]
  cases Text.after? "import".toList t with
  | none => rfl
  | some rest =>
    cases rest with
    | nil => rfl
    | cons c rest =>
      by_cases hc : c = ';' <;> simp [untilEnd, hc]

/-! ## Groups up to the first `;` of each line -/

theorem map_untilEnd_of_not_mem (h : ∀ l ∈ front, ';' ∉ l) : front.map untilEnd = front := by
  conv_rhs => rw [← List.map_id front]
  exact List.map_congr_left fun l hl => untilEnd_of_not_mem (h l hl)

theorem IsGroup.map_untilEnd {group : List Text} (h : IsGroup group) :
    IsGroup (group.map untilEnd) := by
  obtain ⟨line, lines, hgroup, hbegins⟩ := h.begins
  obtain ⟨front, last, hends, hlast, hfront⟩ := h.ends
  refine ⟨⟨untilEnd line, lines.map untilEnd, by rw [hgroup]; rfl,
    by rw [begins_untilEnd, hbegins]⟩, front, untilEnd last, ?_,
    mem_untilEnd.mpr hlast, hfront⟩
  rw [hends, List.map_append, map_untilEnd_of_not_mem hfront]
  rfl

/-- Only the last line of a group has a `;`. -/
theorem IsGroup.gather_untilEnd {group : List Text} (h : IsGroup group) :
    gather (group.map untilEnd) = untilEnd (gather group) := by
  obtain ⟨front, last, rfl, hlast, hfront⟩ := h.ends
  obtain ⟨before, hbefore, hgather⟩ := exists_gather hfront
  have hne : untilEnd last ≠ [] := List.ne_nil_of_mem (mem_untilEnd.mpr hlast)
  rw [List.map_append, map_untilEnd_of_not_mem hfront, List.map_singleton, hgather _ hne,
    hgather _ (List.ne_nil_of_mem hlast), untilEnd_append hbefore]

theorem Reads.map_untilEnd (h : Reads lines groups) :
    Reads (lines.map untilEnd) (groups.map (·.map untilEnd)) := by
  induction h with
  | nil => exact .nil
  | skip hline _ ih => exact .skip (by rw [begins_untilEnd, hline]) ih
  | take hgroup _ ih =>
    rw [List.map_append]
    exact .take hgroup.map_untilEnd ih

theorem LeavesOpen.map_untilEnd (h : LeavesOpen lines) :
    LeavesOpen (lines.map untilEnd) := by
  obtain ⟨before, line, after, groups, rfl, hbefore, hbegins, hopen⟩ := h
  refine ⟨_, line, after, _, ?_, hbefore.map_untilEnd, hbegins, hopen⟩
  obtain ⟨hline, hafter⟩ := List.forall_mem_cons.mp hopen
  rw [List.map_append, List.map_cons, untilEnd_of_not_mem hline, map_untilEnd_of_not_mem hafter]

theorem Reads.gather_untilEnd (h : Reads lines groups) :
    (groups.map (·.map untilEnd)).map gather =
      (groups.map gather).map untilEnd := by
  rw [List.map_map, List.map_map]
  exact List.map_congr_left fun group hgroup => (h.isGroup group hgroup).gather_untilEnd

/-- **What stands behind a `;`** does not count for what is found, only for how it goes on. -/
theorem statements_untilEnd (lines : List Text) :
    statements (lines.map untilEnd) = (statements lines).map (·.map untilEnd) := by
  rcases reads_or_leavesOpen lines with ⟨groups, hreads⟩ | hopen
  · rw [hreads.statements_eq, hreads.map_untilEnd.statements_eq, hreads.gather_untilEnd]
    rfl
  · rw [hopen.statements_eq, hopen.map_untilEnd.statements_eq]
    rfl

/-! ## Where a statement ends -/

theorem terminated_append (h : ';' ∉ s) : Terminated (s ++ t) ↔ Terminated t := by
  rw [terminated_iff, terminated_iff, untilEnd_append h, List.append_cancel_left_eq,
    List.mem_append, or_iff_right h]

/-- A statement ends at its first `;` exactly if its last line does. -/
theorem terminated_gather_concat (hfront : ∀ l ∈ front, ';' ∉ l) (hlast : last ≠ []) :
    Terminated (gather (front ++ [last])) ↔ Terminated last := by
  obtain ⟨before, hbefore, hgather⟩ := exists_gather hfront
  rw [hgather last hlast, terminated_append hbefore]

theorem IsGroup.terminated_gather {group : List Text} (h : IsGroup group) :
    Terminated (gather group) ↔ ∀ last ∈ group.getLast?, Terminated last := by
  obtain ⟨front, last, rfl, hlast, hfront⟩ := h.ends
  rw [terminated_gather_concat hfront (List.ne_nil_of_mem hlast), List.getLast?_concat]
  simp

/-- The statements that should be found end at their first `;`. -/
theorem Cuts.terminated {found : List Text} (h : Cuts lines found) :
    ∀ s ∈ found, Terminated s := by
  induction h with
  | nil => simp
  | skip _ _ ih => exact ih
  | take hgroup hpiece _ ih =>
    obtain ⟨front, last, hsame, -, hfront⟩ := hgroup.ends
    obtain ⟨rfl, -⟩ := List.append_inj' hsame rfl
    refine List.forall_mem_cons.mpr ⟨?_, ih⟩
    rw [terminated_gather_concat hfront (by simp)]
    exact ⟨_, rfl, hpiece⟩

/-- If the lines end with their statements, then these are the ones that should be found. -/
theorem Reads.cuts (h : Reads lines groups)
    (htidy : ∀ group ∈ groups, ∀ last ∈ group.getLast?, Terminated last) :
    Cuts lines (groups.map gather) := by
  induction h with
  | nil => exact .nil
  | skip hline _ ih => exact .skip hline (ih htidy)
  | @take group lines groups hgroup _ ih =>
    obtain ⟨hlast, hrest⟩ := List.forall_mem_cons.mp htidy
    obtain ⟨front, last, rfl, -, -⟩ := hgroup.ends
    obtain ⟨piece, rfl, hpiece⟩ := hlast last (by rw [List.getLast?_concat]; rfl)
    rw [List.append_assoc]
    -- nothing is left of the line but an empty one
    exact .take hgroup hpiece (.skip rfl (ih hrest))

theorem distinct_of_nodup {texts : List Text} (h : texts.Nodup) : distinct texts = texts := by
  rw [distinct_eq_dedup, (List.nodup_reverse.mpr h).dedup, List.reverse_reverse]

theorem distinct_map_distinct (f : Text → Text) (texts : List Text) :
    distinct ((distinct texts).map f) = distinct (texts.map f) := by
  induction texts using List.reverseRecOn with
  | nil => rfl
  | append_singleton texts last ih =>
    rw [distinct_concat, List.map_append, List.map_singleton, distinct_concat, ← ih]
    split
    · rename_i hlast
      rw [if_pos (mem_distinct.mpr (List.mem_map_of_mem hlast))]
    · rw [List.map_append, List.map_singleton, distinct_concat]

/-! ## Texts -/

variable {path : Path} {text : Text} {xs : List Text}

/-- Each statement goes on as a line does behind its first `;`. -/
theorem exists_behind (h : ofText path text = .ok xs) (hs : s ∈ xs) :
    ∃ before front behind, front ++ ';' :: behind ∈ linesOf text ∧ ';' ∉ before ∧ ';' ∉ front ∧
      s = before ++ (front ++ ';' :: behind) := by
  obtain ⟨groups, hreads, rfl⟩ := ofText_ok h
  obtain ⟨group, hgroup, rfl⟩ := List.mem_map.mp (mem_distinct.mp hs)
  obtain ⟨lines, last, rfl, hlast, hlines⟩ := (hreads.isGroup group hgroup).ends
  obtain ⟨before, hbefore, hgather⟩ := exists_gather hlines
  obtain ⟨front, behind, rfl, hfront⟩ := exists_first hlast
  exact ⟨before, front, behind, hreads.mem hgroup (by simp), hbefore, hfront, hgather _ (by simp)⟩

/-- Texts that do not differ up to the first `;` of each line have the same statements up to their
first `;`. -/
theorem exists_ofText_untilEnd (h : ofText path text = .ok xs) {other : Text}
    (hsame : (linesOf other).map untilEnd = (linesOf text).map untilEnd) :
    ∃ ys, ofText path other = .ok ys ∧ distinct (ys.map untilEnd) = distinct (xs.map untilEnd) := by
  obtain ⟨groups, hreads, rfl⟩ := ofText_ok h
  have hfound := hreads.statements_eq
  rcases reads_or_leavesOpen (linesOf other) with ⟨groups', hother⟩ | hopen
  · refine ⟨_, ofText_of_reads hother path, ?_⟩
    have hcut : (groups'.map gather).map untilEnd = (groups.map gather).map untilEnd := by
      have heq := statements_untilEnd (linesOf other)
      rw [hsame, statements_untilEnd, hfound, hother.statements_eq] at heq
      exact (Option.some.inj heq).symm
    rw [distinct_map_distinct, distinct_map_distinct, hcut]
  · have heq := statements_untilEnd (linesOf other)
    rw [hsame, statements_untilEnd, hfound, hopen.statements_eq] at heq
    cases heq

theorem terminated_iff_tidy (h : ofText path text = .ok xs) :
    (∀ s ∈ xs, Terminated s) ↔ Tidy (linesOf text) := by
  obtain ⟨groups, hreads, rfl⟩ := ofText_ok h
  constructor
  · intro hall groups' hreads' group hgroup
    have hfound : groups'.map gather = groups.map gather :=
      Option.some.inj (hreads'.statements_eq.symm.trans hreads.statements_eq)
    refine (hreads'.isGroup group hgroup).terminated_gather.mp (hall _ (mem_distinct.mpr ?_))
    rw [← hfound]
    exact List.mem_map_of_mem hgroup
  · intro htidy s hs
    obtain ⟨group, hgroup, rfl⟩ := List.mem_map.mp (mem_distinct.mp hs)
    exact (hreads.isGroup group hgroup).terminated_gather.mpr (htidy groups hreads group hgroup)

/-- Statements that end at their first `;` are what they are up to there. -/
theorem distinct_map_untilEnd (h : ofText path text = .ok xs) (htidy : Tidy (linesOf text)) :
    distinct (xs.map untilEnd) = xs := by
  have hsame : xs.map untilEnd = xs := by
    conv_rhs => rw [← List.map_id xs]
    refine List.map_congr_left fun s hs => ?_
    exact (terminated_iff.mp ((terminated_iff_tidy h).mpr htidy s hs)).2
  obtain ⟨groups, -, rfl⟩ := ofText_ok h
  rw [hsame, distinct_of_nodup (nodup_distinct _)]

/-- **How far a statement goes.** It goes on as its last line does behind the first `;`. All
statements of a text end at their first `;`, and all that should be found are, exactly if no line in
which one ends goes on; what stands behind a `;` never changes a statement up to there. -/
theorem ofText_ends_iff (h : ofText path text = .ok xs) :
    (∀ s ∈ xs, ∃ before front behind, front ++ ';' :: behind ∈ linesOf text ∧ ';' ∉ before ∧
      ';' ∉ front ∧ s = before ++ (front ++ ';' :: behind)) ∧
    ((∀ s ∈ xs, Terminated s) ↔ Tidy (linesOf text)) ∧
    ((∃ found, Cuts (linesOf text) found ∧ xs = distinct found) ↔ Tidy (linesOf text)) ∧
    ∀ other, (linesOf other).map untilEnd = (linesOf text).map untilEnd →
      ∃ ys, ofText path other = .ok ys ∧
        distinct (ys.map untilEnd) = distinct (xs.map untilEnd) ∧
        (Tidy (linesOf text) → Tidy (linesOf other) → ys = xs) := by
  refine ⟨fun s hs => exists_behind h hs, terminated_iff_tidy h, ⟨?_, fun htidy => ?_⟩,
    fun other hsame => ?_⟩
  · rintro ⟨found, hcuts, rfl⟩
    exact (terminated_iff_tidy h).mp fun s hs => hcuts.terminated s (mem_distinct.mp hs)
  · obtain ⟨groups, hreads, rfl⟩ := ofText_ok h
    exact ⟨_, hreads.cuts (htidy groups hreads), rfl⟩
  · obtain ⟨ys, hys, hends⟩ := exists_ofText_untilEnd h hsame
    refine ⟨ys, hys, hends, fun htidy htidy' => ?_⟩
    rw [distinct_map_untilEnd h htidy, distinct_map_untilEnd hys htidy'] at hends
    exact hends

/-- A statement over two lines, and the same with a comment behind it. -/
theorem ofText_ends_iff_comment :
    ofText ⟨['A']⟩ "import {A}\n from 'a';".toList = .ok ["import {A} from 'a';".toList] ∧
      Tidy (linesOf "import {A}\n from 'a';".toList) ∧
      ∃ ys, ofText ⟨['A']⟩ "import {A}\n from 'a'; // ;".toList = .ok ys ∧
        distinct (ys.map untilEnd) = ["import {A} from 'a';".toList] := by
  have hone : ofText ⟨['A']⟩ "import {A}\n from 'a';".toList =
      .ok ["import {A} from 'a';".toList] := by
    cbv
  obtain ⟨-, htidy, -, hother⟩ := ofText_ends_iff hone
  obtain ⟨ys, hys, hends, -⟩ := hother "import {A}\n from 'a'; // ;".toList (by decide)
  refine ⟨hone, htidy.mp fun s hs => ?_, ys, hys, hends⟩
  rw [List.mem_singleton.mp hs]
  exact ⟨"import {A} from 'a'".toList, by decide, by decide⟩

/-- A further import in the line of an import is no statement. -/
theorem not_terminated :
    ¬ ∀ (path : Path) (text : Text) (xs : List Text), ofText path text = .ok xs →
      (∀ s ∈ xs, Terminated s) ∧ ∃ found, Cuts (linesOf text) found ∧ xs = distinct found := by
  intro hall
  have hshared : ofText ⟨['A']⟩ "import 'A';import 'B';".toList =
      .ok ["import 'A';import 'B';".toList] := by
    cbv
  have hend := (hall _ _ _ hshared).1 _ List.mem_cons_self
  exact absurd (terminated_iff.mp hend).2 (by decide)

end ImportLines

end SolPlan
