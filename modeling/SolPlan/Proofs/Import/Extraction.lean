import Mathlib.Data.List.Dedup
import Mathlib.Data.List.Induction
import SolPlan.Import.Lines

/-!
# How the lines of a text are read

The trimmed lines of a text (`linesOf`) are read in groups: a group begins with a line that begins a
statement and ends with its first line that holds a `;` (`IsGroup`), and lines between groups are
passed over (`Reads`). The statement of a group is its lines with single spaces between them
(`gather`). A text cannot be read if a line between groups begins a statement and neither it nor a
line behind it holds a `;` (`LeavesOpen`).

Results:
* `statements_eq_some_iff`, `statements_eq_none_iff`: what is found in lines, and when nothing is;
* `Reads.statements_append`: lines that are read leave no trace in those behind them;
* **`ofText_composes`**: texts are read one after the other, the statements that are found are
  distinct and begin with `import`, and the only fault is a group that does not end.
-/

namespace SolPlan

namespace ImportLines

variable {lines group : List Text} {groups : List (List Text)} {line statement : Text}

/-- The lines in which statements are looked for. -/
def linesOf (text : Text) : List Text := text.lines.map Text.trim

/-- The lines of one statement: the first begins it, and the last is the first one with a `;`. -/
structure IsGroup (group : List Text) : Prop where
  begins : ∃ line lines, group = line :: lines ∧ begins line = true
  ends : ∃ front last, group = front ++ [last] ∧ ';' ∈ last ∧ ∀ line ∈ front, ';' ∉ line

/-- The lines are groups, with lines between them that begin no statement. -/
inductive Reads : List Text → List (List Text) → Prop
  | nil : Reads [] []
  | skip {line : Text} {lines : List Text} {groups : List (List Text)} :
      begins line = false → Reads lines groups → Reads (line :: lines) groups
  | take {group lines : List Text} {groups : List (List Text)} :
      IsGroup group → Reads lines groups → Reads (group ++ lines) (group :: groups)

/-- A line between groups begins a statement that does not end. -/
def LeavesOpen (lines : List Text) : Prop :=
  ∃ before line after groups, lines = before ++ line :: after ∧ Reads before groups ∧
    begins line = true ∧ ∀ l ∈ line :: after, ';' ∉ l

/-- The statement of a group. -/
def gather : List Text → Text
  | [] => []
  | line :: lines => lines.foldl extend line

/-! ## Completing a statement -/

theorem mem_extend : ';' ∈ extend statement line ↔ ';' ∈ statement ∨ ';' ∈ line := by
  unfold extend
  split
  · rename_i hnil
    simp [hnil]
  · simp

theorem complete_of_mem (h : ';' ∈ statement) (lines : List Text) :
    complete statement lines = some (statement, lines) := by
  cases lines <;> simp [complete, h]

/-- A statement takes lines up to the first one with a `;`. -/
theorem complete_append {front : List Text} {last : Text} (h : ';' ∉ statement)
    (hfront : ∀ l ∈ front, ';' ∉ l) (hlast : ';' ∈ last) (rest : List Text) :
    complete statement (front ++ last :: rest) =
      some ((front ++ [last]).foldl extend statement, rest) := by
  induction front generalizing statement with
  | nil =>
    rw [List.nil_append, complete, if_neg h, complete_of_mem (mem_extend.mpr (.inr hlast))]
    rfl
  | cons first front ih =>
    have hnext : ';' ∉ extend statement first := fun hmem =>
      (mem_extend.mp hmem).elim h (hfront first List.mem_cons_self)
    rw [List.cons_append, complete, if_neg h,
      ih hnext fun l hl => hfront l (List.mem_cons_of_mem _ hl)]
    rfl

theorem complete_eq_none_iff :
    complete statement lines = none ↔ ';' ∉ statement ∧ ∀ l ∈ lines, ';' ∉ l := by
  induction lines generalizing statement with
  | nil => simp [complete]
  | cons first lines ih =>
    rw [complete]
    split
    · rename_i hmem
      simp [hmem]
    · rename_i hnot
      rw [ih, mem_extend, List.forall_mem_cons]
      tauto

theorem complete_of_isGroup (h : IsGroup (line :: group)) (rest : List Text) :
    complete line (group ++ rest) = some (gather (line :: group), rest) := by
  obtain ⟨front, last, hgroup, hlast, hfront⟩ := h.ends
  cases front with
  | nil =>
    obtain ⟨rfl, rfl⟩ := List.cons.inj hgroup
    exact complete_of_mem hlast rest
  | cons first front =>
    rw [List.cons_append, List.cons.injEq] at hgroup
    obtain ⟨rfl, rfl⟩ := hgroup
    rw [List.append_assoc]
    exact complete_append (hfront _ List.mem_cons_self)
      (fun l hl => hfront l (List.mem_cons_of_mem _ hl)) hlast rest

/-- Lines hold no `;`, or there is a first one that does. -/
theorem split_lines (lines : List Text) :
    (∀ l ∈ lines, ';' ∉ l) ∨
      ∃ front last behind, lines = front ++ last :: behind ∧ ';' ∈ last ∧ ∀ l ∈ front, ';' ∉ l := by
  induction lines with
  | nil => exact .inl (by simp)
  | cons line lines ih =>
    by_cases hline : ';' ∈ line
    · exact .inr ⟨[], line, lines, rfl, hline, by simp⟩
    · rcases ih with hnone | ⟨front, last, behind, rfl, hlast, hfront⟩
      · exact .inl (List.forall_mem_cons.mpr ⟨hline, hnone⟩)
      · exact .inr ⟨line :: front, last, behind, rfl, hlast,
          List.forall_mem_cons.mpr ⟨hline, hfront⟩⟩

/-- The lines of a completed statement are a group. -/
theorem isGroup_of_complete {done : Text} {rest : List Text} (hbegins : begins line = true)
    (h : complete line lines = some (done, rest)) :
    ∃ taken, lines = taken ++ rest ∧ IsGroup (line :: taken) ∧ done = gather (line :: taken) := by
  by_cases hline : ';' ∈ line
  · rw [complete_of_mem hline] at h
    cases h
    exact ⟨[], rfl, ⟨⟨line, [], rfl, hbegins⟩, [], line, rfl, hline, by simp⟩, rfl⟩
  · rcases split_lines lines with hnone | ⟨front, last, behind, rfl, hlast, hfront⟩
    · rw [complete_eq_none_iff.mpr ⟨hline, hnone⟩] at h
      cases h
    · rw [complete_append hline hfront hlast] at h
      cases h
      have hopen : ∀ l ∈ line :: front, ';' ∉ l := List.forall_mem_cons.mpr ⟨hline, hfront⟩
      exact ⟨front ++ [last], by simp,
        ⟨⟨line, _, rfl, hbegins⟩, line :: front, last, rfl, hlast, hopen⟩, rfl⟩

/-! ## Reading lines -/

theorem statements_cons_of_begins (h : begins line = true) (lines : List Text) :
    statements (line :: lines) = (complete line lines).bind fun (statement, rest) =>
      (statements rest).map (statement :: ·) := by
  rw [statements, if_pos h]
  split <;> rename_i hcomplete <;> rw [hcomplete] <;> rfl

theorem statements_skip (h : begins line = false) (lines : List Text) :
    statements (line :: lines) = statements lines := by
  rw [statements, if_neg (by simp [h])]

theorem statements_group (h : IsGroup group) (lines : List Text) :
    statements (group ++ lines) = (statements lines).map (gather group :: ·) := by
  obtain ⟨line, rest, rfl, hbegins⟩ := h.begins
  rw [List.cons_append, statements_cons_of_begins hbegins, complete_of_isGroup h]
  rfl

/-- **Lines that are read** give their statements, and what is behind them is read as if they were
not there. -/
theorem Reads.statements_append (h : Reads lines groups) (more : List Text) :
    statements (lines ++ more) = (statements more).map (groups.map gather ++ ·) := by
  induction h with
  | nil => simp
  | skip hline _ ih => rw [List.cons_append, statements_skip hline, ih]
  | take hgroup _ ih =>
    rw [List.append_assoc, statements_group hgroup, ih, Option.map_map]
    rfl

theorem Reads.statements_eq (h : Reads lines groups) :
    statements lines = some (groups.map gather) := by
  have := h.statements_append []
  rwa [List.append_nil, statements, Option.map_some, List.append_nil] at this

theorem LeavesOpen.statements_eq (h : LeavesOpen lines) : statements lines = none := by
  obtain ⟨before, line, after, groups, rfl, hbefore, hbegins, hopen⟩ := h
  have hnone : complete line after = none :=
    complete_eq_none_iff.mpr (List.forall_mem_cons.mp hopen)
  rw [hbefore.statements_append, statements_cons_of_begins hbegins, hnone]
  rfl

/-- Lines can be read, or a statement in them does not end. -/
theorem reads_or_leavesOpen (lines : List Text) :
    (∃ groups, Reads lines groups) ∨ LeavesOpen lines := by
  induction lines using statements.induct with
  | case1 => exact .inl ⟨[], .nil⟩
  | case2 line lines hbegins hnone =>
    exact .inr ⟨[], line, lines, [], rfl, .nil, hbegins,
      List.forall_mem_cons.mpr (complete_eq_none_iff.mp hnone)⟩
  | case3 line lines hbegins statement rest hcomplete ih =>
    obtain ⟨taken, rfl, hgroup, -⟩ := isGroup_of_complete hbegins hcomplete
    rcases ih with ⟨groups, hrest⟩ | ⟨before, start, after, groups, rfl, hbefore, hopen⟩
    · exact .inl ⟨_, .take hgroup hrest⟩
    · exact .inr ⟨line :: taken ++ before, start, after, _, by simp, .take hgroup hbefore, hopen⟩
  | case4 line lines hbegins ih =>
    have hline : begins line = false := by simpa using hbegins
    rcases ih with ⟨groups, hlines⟩ | ⟨before, start, after, groups, rfl, hbefore, hopen⟩
    · exact .inl ⟨groups, .skip hline hlines⟩
    · exact .inr ⟨line :: before, start, after, groups, rfl, .skip hline hbefore, hopen⟩

theorem statements_eq_some_iff {found : List Text} :
    statements lines = some found ↔ ∃ groups, Reads lines groups ∧ found = groups.map gather := by
  constructor
  · intro h
    rcases reads_or_leavesOpen lines with ⟨groups, hreads⟩ | hopen
    · exact ⟨groups, hreads, Option.some.inj (h.symm.trans hreads.statements_eq)⟩
    · cases h.symm.trans hopen.statements_eq
  · rintro ⟨groups, hreads, rfl⟩
    exact hreads.statements_eq

theorem statements_eq_none_iff : statements lines = none ↔ LeavesOpen lines := by
  refine ⟨fun h => ?_, LeavesOpen.statements_eq⟩
  rcases reads_or_leavesOpen lines with ⟨groups, hreads⟩ | hopen
  · cases h.symm.trans hreads.statements_eq
  · exact hopen

theorem Reads.isGroup (h : Reads lines groups) : ∀ group ∈ groups, IsGroup group := by
  induction h with
  | nil => simp
  | skip _ _ ih => exact ih
  | take hgroup _ ih => exact List.forall_mem_cons.mpr ⟨hgroup, ih⟩

theorem Reads.mem (h : Reads lines groups) (hgroup : group ∈ groups) (hline : line ∈ group) :
    line ∈ lines := by
  induction h with
  | nil => cases hgroup
  | skip _ _ ih => exact List.mem_cons_of_mem _ (ih hgroup)
  | take _ _ ih =>
    rcases List.mem_cons.mp hgroup with rfl | hgroup
    · exact List.mem_append_left _ hline
    · exact List.mem_append_right _ (ih hgroup)

/-- Empty lines are passed over. -/
theorem reads_void {void : List Text} (h : ∀ l ∈ void, l = []) : Reads void [] := by
  induction void with
  | nil => exact .nil
  | cons line void ih =>
    obtain ⟨rfl, hvoid⟩ := List.forall_mem_cons.mp h
    exact .skip rfl (ih hvoid)

/-! ## The statement of a group -/

/-- A statement begins with `import`, which a boundary follows. -/
def StartsWithImport (statement : Text) : Prop :=
  ∃ c rest, statement = "import".toList ++ c :: rest ∧ isBoundary c = true

theorem begins_iff : begins line = true ↔ line = "import".toList ∨ StartsWithImport line := by
  unfold begins StartsWithImport
  cases hafter : Text.after? "import".toList line with
  | none =>
    have hnot : ∀ rest, line ≠ "import".toList ++ rest := fun rest heq => by
      rw [Text.after?_eq_some_iff.mpr heq] at hafter
      cases hafter
    have hword : line ≠ "import".toList := fun heq => hnot [] (heq.trans (List.append_nil _).symm)
    simp only [Bool.false_eq_true, false_iff, not_or, not_exists, not_and]
    exact ⟨hword, fun c rest heq => absurd heq (hnot _)⟩
  | some rest =>
    obtain rfl := Text.after?_eq_some_iff.mp hafter
    cases rest with
    | nil => simp
    | cons c rest => simp

theorem not_mem_gather {front : List Text} (h : ∀ l ∈ front, ';' ∉ l) : ';' ∉ gather front := by
  cases front with
  | nil => simp [gather]
  | cons line front =>
    obtain ⟨hline, hfront⟩ := List.forall_mem_cons.mp h
    clear h
    change ';' ∉ front.foldl extend line
    induction front generalizing line with
    | nil => exact hline
    | cons next front ih =>
      obtain ⟨hnext, hfront⟩ := List.forall_mem_cons.mp hfront
      exact ih _ (fun hmem => (mem_extend.mp hmem).elim hline hnext) hfront

/-- A statement is its last line behind something without a `;`. -/
theorem exists_gather {front : List Text} (h : ∀ l ∈ front, ';' ∉ l) :
    ∃ before, ';' ∉ before ∧ ∀ last, last ≠ [] → gather (front ++ [last]) = before ++ last := by
  cases front with
  | nil => exact ⟨[], by simp, fun _ _ => rfl⟩
  | cons line front =>
    refine ⟨gather (line :: front) ++ [' '], by simp [not_mem_gather h], fun last hlast => ?_⟩
    rw [List.cons_append, gather, List.foldl_append, List.foldl_cons, List.foldl_nil, extend,
      if_neg hlast, List.append_assoc]
    rfl

theorem IsGroup.mem_gather (h : IsGroup group) : ';' ∈ gather group := by
  obtain ⟨front, last, rfl, hlast, hfront⟩ := h.ends
  obtain ⟨before, -, hgather⟩ := exists_gather hfront
  rw [hgather last (List.ne_nil_of_mem hlast)]
  exact List.mem_append_right _ hlast

/-- A line that is extended is followed by a space. -/
theorem exists_foldl_extend (line : Text) (lines : List Text) :
    ∃ more, lines.foldl extend line = line ++ more ∧ (more = [] ∨ more.head? = some ' ') := by
  induction lines generalizing line with
  | nil => exact ⟨[], by simp, .inl rfl⟩
  | cons next lines ih =>
    obtain ⟨more, hmore, hhead⟩ := ih (extend line next)
    rw [List.foldl_cons, hmore]
    unfold extend
    split
    · exact ⟨more, rfl, hhead⟩
    · exact ⟨' ' :: next ++ more, by simp, .inr rfl⟩

theorem IsGroup.startsWithImport (h : IsGroup group) : StartsWithImport (gather group) := by
  obtain ⟨line, lines, rfl, hbegins⟩ := h.begins
  have hmem := h.mem_gather
  obtain ⟨more, hmore, hhead⟩ := exists_foldl_extend line lines
  change StartsWithImport (lines.foldl extend line)
  change ';' ∈ lines.foldl extend line at hmem
  rw [hmore] at hmem ⊢
  rcases begins_iff.mp hbegins with rfl | ⟨c, rest, rfl, hc⟩
  · -- the word alone holds no `;`, so a line was added to it
    rcases hhead with rfl | hhead
    · exact absurd hmem (by decide)
    · cases more with
      | nil => cases hhead
      | cons c more =>
        cases hhead
        exact ⟨' ', more, rfl, by decide⟩
  · exact ⟨c, rest ++ more, by simp, hc⟩

/-! ## Statements that come again -/

theorem distinct_concat (texts : List Text) (t : Text) :
    distinct (texts ++ [t]) =
      if t ∈ distinct texts then distinct texts else distinct texts ++ [t] := by
  unfold distinct
  rw [List.foldl_append]
  rfl

/-- Leaving out what comes again, from the front, is leaving out what comes before, from the end. -/
theorem distinct_eq_dedup (texts : List Text) : distinct texts = texts.reverse.dedup.reverse := by
  induction texts using List.reverseRecOn with
  | nil => rfl
  | append_singleton texts last ih =>
    rw [distinct_concat, ih, List.reverse_append, List.reverse_singleton, List.singleton_append,
      List.dedup_cons]
    by_cases h : last ∈ texts <;> simp [h]

@[simp] theorem mem_distinct {texts : List Text} {t : Text} : t ∈ distinct texts ↔ t ∈ texts := by
  rw [distinct_eq_dedup, List.mem_reverse, List.mem_dedup, List.mem_reverse]

theorem nodup_distinct (texts : List Text) : (distinct texts).Nodup := by
  rw [distinct_eq_dedup]
  exact List.nodup_reverse.mpr (List.nodup_dedup _)

/-- Of texts that follow others, those remain that are not among them. -/
theorem distinct_append (front back : List Text) :
    distinct (front ++ back) = distinct front ++ (distinct back).filter (· ∉ distinct front) := by
  induction back using List.reverseRecOn with
  | nil => simp [distinct]
  | append_singleton back last ih =>
    rw [← List.append_assoc, distinct_concat, distinct_concat, ih]
    by_cases hfront : last ∈ front
    · by_cases hback : last ∈ back <;> simp [hfront, hback]
    · by_cases hback : last ∈ back <;> simp [hfront, hback]

/-! ## Texts one after the other -/

theorem trim_dropReturn (t : Text) : (Text.dropReturn t).trim = t.trim := by
  unfold Text.dropReturn
  split
  · rename_i hlast
    obtain ⟨front, rfl⟩ := List.getLast?_eq_some_iff.mp hlast
    have hreturn : Text.isBlank '\r' = true := by decide
    rw [List.dropLast_concat]
    unfold Text.trim Text.trimStart
    rw [List.dropWhile_append]
    split
    · rename_i hnil
      rw [List.isEmpty_iff.mp hnil, List.dropWhile_cons, if_pos hreturn, List.dropWhile_nil]
    · unfold Text.trimEnd Text.dropEndWhile
      rw [List.reverse_append, List.reverse_singleton, List.singleton_append, List.dropWhile_cons,
        if_pos hreturn]
  · rfl

/-- The lines are the trimmed pieces, without the last one if it is empty. -/
theorem linesOf_of_splitOn {text last : Text} {pieces : List Text}
    (h : text.splitOn '\n' = pieces ++ [last]) :
    linesOf text = pieces.map Text.trim ++ ([last].filter (· ≠ [])).map Text.trim := by
  have hpieces : (pieces.map Text.dropReturn).map Text.trim = pieces.map Text.trim := by
    rw [List.map_map]
    exact List.map_congr_left fun piece _ => trim_dropReturn piece
  unfold linesOf Text.lines
  dsimp only
  rw [h, List.dropLast_concat, List.getLast?_concat, List.map_append, hpieces, Option.toList_some]

/-- The lines of two texts are those of the one and those of the other, and maybe an empty one. -/
theorem linesOf_append (front back : Text) :
    ∃ void, (∀ l ∈ void, l = []) ∧
      linesOf (front ++ '\n' :: back) = linesOf front ++ (void ++ linesOf back) := by
  have hpieces : ∀ text : Text, ∃ pieces last, text.splitOn '\n' = pieces ++ [last] := fun text =>
    ⟨_, _, (List.dropLast_append_getLast (List.splitOn_ne_nil '\n' text)).symm⟩
  obtain ⟨pieces, last, hfront⟩ := hpieces front
  obtain ⟨pieces', last', hback⟩ := hpieces back
  have hboth : (front ++ '\n' :: back).splitOn '\n' = (pieces ++ [last] ++ pieces') ++ [last'] := by
    rw [List.splitOn_append_cons_self, hfront, hback, List.append_assoc (pieces ++ [last])]
  rw [linesOf_of_splitOn hfront, linesOf_of_splitOn hback, linesOf_of_splitOn hboth]
  by_cases hlast : last = []
  · exact ⟨[[]], by simp, by simp [hlast, Text.trim, Text.trimStart, Text.trimEnd,
      Text.dropEndWhile]⟩
  · exact ⟨[], by simp, by simp [hlast]⟩

theorem ofText_eq (path : Path) (text : Text) :
    ofText path text = match statements (linesOf text) with
      | some found => .ok (distinct found)
      | none => .error (.unterminatedImport path) :=
  rfl

/-- What is found in a text comes from its groups. -/
theorem ofText_ok {path : Path} {text : Text} {xs : List Text} (h : ofText path text = .ok xs) :
    ∃ groups, Reads (linesOf text) groups ∧ xs = distinct (groups.map gather) := by
  rw [ofText_eq] at h
  split at h
  · rename_i found hfound
    obtain ⟨groups, hreads, rfl⟩ := statements_eq_some_iff.mp hfound
    exact ⟨groups, hreads, (Except.ok.inj h).symm⟩
  · cases h

theorem ofText_of_reads {text : Text} (h : Reads (linesOf text) groups) (path : Path) :
    ofText path text = .ok (distinct (groups.map gather)) := by
  rw [ofText_eq, h.statements_eq]

theorem ofText_error_iff {path : Path} {text : Text} {e : Error} :
    ofText path text = .error e ↔ LeavesOpen (linesOf text) ∧ e = .unterminatedImport path := by
  rw [ofText_eq, ← statements_eq_none_iff]
  cases statements (linesOf text) with
  | none => simp [eq_comm]
  | some found => simp

/-- **How a text is read.** If it can be read, then the statements are distinct, each begins with
`import` and holds a `;`, and they stand in front of the new ones of any text behind it; a fault in
that text is a fault of both. It cannot be read exactly if a statement that begins outside all
earlier ones has no `;` in its line or a later one. -/
theorem ofText_composes (path : Path) (text : Text) :
    (∀ xs, ofText path text = .ok xs →
      xs.Nodup ∧ (∀ s ∈ xs, StartsWithImport s ∧ ';' ∈ s) ∧
      ∀ more,
        (∀ ys, ofText path more = .ok ys →
          ofText path (text ++ '\n' :: more) = .ok (xs ++ ys.filter (· ∉ xs))) ∧
        (∀ e, ofText path more = .error e →
          ofText path (text ++ '\n' :: more) = .error (.unterminatedImport path))) ∧
    ((∃ e, ofText path text = .error e) ↔ LeavesOpen (linesOf text)) := by
  constructor
  · intro xs hxs
    obtain ⟨groups, hreads, rfl⟩ := ofText_ok hxs
    refine ⟨nodup_distinct _, fun s hs => ?_, fun more => ?_⟩
    · obtain ⟨group, hmem, rfl⟩ := List.mem_map.mp (mem_distinct.mp hs)
      have hgroup := hreads.isGroup group hmem
      exact ⟨hgroup.startsWithImport, hgroup.mem_gather⟩
    · obtain ⟨void, hvoid, hlines⟩ := linesOf_append text more
      -- the scanner is between statements at the seam, and passes over the empty line
      have hseam : statements (linesOf (text ++ '\n' :: more)) =
          (statements (linesOf more)).map (groups.map gather ++ ·) := by
        rw [hlines, hreads.statements_append, (reads_void hvoid).statements_append, Option.map_map]
        rfl
      constructor
      · intro ys hys
        obtain ⟨groups', hmore, rfl⟩ := ofText_ok hys
        rw [ofText_eq, hseam, hmore.statements_eq, Option.map_some]
        exact congrArg _ (distinct_append _ _)
      · intro e he
        rw [ofText_eq, hseam, (ofText_error_iff.mp he).1.statements_eq]
        rfl
  · constructor
    · rintro ⟨e, he⟩
      exact (ofText_error_iff.mp he).1
    · intro hopen
      exact ⟨_, ofText_error_iff.mpr ⟨hopen, rfl⟩⟩

/-- A statement over two lines. -/
def twoLines : Text := "import {A}\r\n from 'a'; //".toList

/-- A text in which that statement comes again. -/
def oneLine : Text := "import 'b';\nimport {A} from 'a'; //".toList

/-- A statement comes again behind the seam, and one behind it does not end. -/
theorem ofText_composes_twoLines :
    ofText ⟨['A']⟩ twoLines = .ok ["import {A} from 'a'; //".toList] ∧
      ofText ⟨['A']⟩ (twoLines ++ '\n' :: oneLine) =
        .ok ["import {A} from 'a'; //".toList, "import 'b';".toList] ∧
      LeavesOpen (linesOf "import".toList) ∧
      ofText ⟨['A']⟩ (twoLines ++ '\n' :: "import".toList) =
        .error (.unterminatedImport ⟨['A']⟩) := by
  have htwo : ofText ⟨['A']⟩ twoLines = .ok ["import {A} from 'a'; //".toList] := by
    cbv
  have hone : ofText ⟨['A']⟩ oneLine =
      .ok ["import 'b';".toList, "import {A} from 'a'; //".toList] := by
    cbv
  have hopen : ofText ⟨['A']⟩ "import".toList = .error (.unterminatedImport ⟨['A']⟩) := by
    cbv
  obtain ⟨-, -, hseam⟩ := (ofText_composes ⟨['A']⟩ twoLines).1 _ htwo
  exact ⟨htwo, (hseam _).1 _ hone, (ofText_composes ⟨['A']⟩ _).2.mp ⟨_, hopen⟩, (hseam _).2 _ hopen⟩

end ImportLines

end SolPlan
