import SolPlan.Project

/-!
# Steps of paths

What a path leads to lexically is decided by its pieces alone: `resolvePieces` takes them one after
the other, on top of the steps that are kept so far, **last first**. The anchor of a path plays no
part in it. What is kept are names, and maybe a step upwards before them (`Grounded`).

The way from a base is a number of `..` and then names. Put after the base it leads where it is the
way to, whatever the base. In the id of a path the way stands as it is, as long as no name in it
holds a backslash: in an id a backslash is a slash.

Results:
* `reverse_steps`, `reverse_steps_join`: the steps of a path, and of a path seen from another;
* `Grounded.resolvePieces_wayPieces`, `steps_join_way`: where a way leads;
* `text_ofPath`: the text of the id of a path;
* **`normalize_ofPath`**: the id of a path, seen from the root, is the normalized path.
-/

namespace SolPlan

namespace Path

/-- The steps that are kept after some pieces. -/
def resolvePieces (kept pieces : List Text) : List Text :=
  (pieces.filterMap Component.ofPiece?).foldl resolveStep kept

/-- The step upwards, as a piece. -/
def upPiece : Text := ['.', '.']

/-- A piece that goes one step down. -/
structure IsName (s : Text) : Prop where
  no_slash : '/' ∉ s
  not_void : isVoid s = false
  not_up : s ≠ upPiece

/-- A name that stays what it is in a source id. -/
structure IsPlain (s : Text) : Prop extends IsName s where
  no_backslash : '\\' ∉ s

theorem IsName.ne_nil {s : Text} (h : IsName s) : s ≠ [] := fun hnil =>
  absurd (hnil ▸ h.not_void) (by decide)

theorem IsPlain.isSegment {s : Text} (h : IsPlain s) : IsSegment s :=
  ⟨h.no_slash, h.no_backslash, h.not_void⟩

theorem isSegment_upPiece : IsSegment upPiece := ⟨by decide, by decide, by decide⟩

variable {kept pieces names : List Text}

/-! ## Taking pieces -/

theorem resolvePieces_append (kept a b : List Text) :
    resolvePieces kept (a ++ b) = resolvePieces (resolvePieces kept a) b := by
  unfold resolvePieces
  rw [List.filterMap_append, List.foldl_append]

theorem resolvePieces_cons (kept : List Text) (s : Text) (pieces : List Text) :
    resolvePieces kept (s :: pieces) = resolvePieces (resolvePieces kept [s]) pieces :=
  resolvePieces_append kept [s] pieces

theorem resolvePieces_void {s : Text} (h : isVoid s = true) : resolvePieces kept [s] = kept := by
  unfold resolvePieces Component.ofPiece?
  simp [h]

theorem resolvePieces_name {s : Text} (h : IsName s) : resolvePieces kept [s] = s :: kept := by
  have hup : s ≠ ['.', '.'] := h.not_up
  unfold resolvePieces Component.ofPiece?
  simp [h.not_void, hup, resolveStep]

theorem resolvePieces_up (s : Text) (kept : List Text) :
    resolvePieces (s :: kept) [upPiece] = kept := rfl

theorem resolvePieces_names (h : ∀ s ∈ names, IsName s) :
    resolvePieces kept names = names.reverse ++ kept := by
  induction names generalizing kept with
  | nil => rfl
  | cons s names ih =>
    rw [resolvePieces_cons, resolvePieces_name (h s List.mem_cons_self),
      ih fun s hs => h s (List.mem_cons_of_mem _ hs)]
    simp

/-- Each step upwards takes one step away. -/
theorem resolvePieces_ups (steps kept : List Text) :
    resolvePieces (steps ++ kept) (List.replicate steps.length upPiece) = kept := by
  induction steps with
  | nil => rfl
  | cons s steps ih =>
    rw [List.cons_append, List.length_cons, List.replicate_succ, resolvePieces_cons,
      resolvePieces_up]
    exact ih

/-! ## Steps that are kept -/

/-- A piece is void, a step upwards, or a name. -/
theorem void_or_up_or_name {s : Text} (hslash : '/' ∉ s) :
    isVoid s = true ∨ s = upPiece ∨ IsName s := by
  cases hvoid : isVoid s with
  | true => exact Or.inl rfl
  | false =>
    by_cases hup : s = upPiece
    · exact Or.inr (Or.inl hup)
    · exact Or.inr (Or.inr ⟨hslash, hvoid, hup⟩)

/-- The steps, last first, are names, and maybe a step upwards before them. -/
def Grounded (kept : List Text) : Prop :=
  ∃ names, (∀ s ∈ names, IsName s) ∧ (kept = names ∨ kept = names ++ [upPiece])

theorem Grounded.resolvePieces {kept pieces : List Text} (h : Grounded kept)
    (hslash : ∀ s ∈ pieces, '/' ∉ s) : Grounded (resolvePieces kept pieces) := by
  induction pieces generalizing kept with
  | nil => exact h
  | cons s pieces ih =>
    rw [resolvePieces_cons]
    refine ih ?_ fun s' hs' => hslash s' (List.mem_cons_of_mem _ hs')
    obtain ⟨names, hnames, hkept⟩ := h
    rcases void_or_up_or_name (hslash s List.mem_cons_self) with hvoid | rfl | hname
    · rw [resolvePieces_void hvoid]
      exact ⟨names, hnames, hkept⟩
    · cases names with
      | nil =>
        rcases hkept with rfl | rfl
        · exact ⟨[], hnames, Or.inr rfl⟩
        · exact ⟨[], hnames, Or.inl rfl⟩
      | cons n names =>
        have hnames : ∀ s ∈ names, IsName s := fun s hs => hnames s (List.mem_cons_of_mem _ hs)
        rcases hkept with rfl | rfl
        · exact ⟨names, hnames, Or.inl rfl⟩
        · exact ⟨names, hnames, Or.inr rfl⟩
    · rw [resolvePieces_name hname]
      refine ⟨s :: names, fun s' hs' => ?_, hkept.imp (congrArg (s :: ·)) (congrArg (s :: ·))⟩
      rcases List.mem_cons.mp hs' with rfl | hs'
      · exact hname
      · exact hnames s' hs'

/-- Nothing but names is kept, and maybe a step upwards. -/
theorem grounded_resolvePieces {pieces : List Text} (hslash : ∀ s ∈ pieces, '/' ∉ s) :
    Grounded (resolvePieces [] pieces) :=
  Grounded.resolvePieces ⟨[], fun _ h => absurd h List.not_mem_nil, Or.inl rfl⟩ hslash

/-- The steps in their order. -/
theorem Grounded.exists_names {steps : List Text} (h : Grounded steps.reverse) :
    ∃ names, (∀ s ∈ names, IsName s) ∧ (steps = names ∨ steps = upPiece :: names) := by
  obtain ⟨names, hnames, hsteps⟩ := h
  refine ⟨names.reverse, fun s hs => hnames s (List.mem_reverse.mp hs), hsteps.imp ?_ ?_⟩
  · exact List.reverse_eq_iff.mp
  · intro hsteps
    rw [List.reverse_eq_iff.mp hsteps, List.reverse_append]
    rfl

theorem Grounded.solid {steps : List Text} (h : Grounded steps.reverse) :
    ∀ s ∈ steps, '/' ∉ s ∧ isVoid s = false := by
  obtain ⟨names, hnames, hsteps⟩ := h.exists_names
  have hsolid : ∀ s ∈ names, '/' ∉ s ∧ isVoid s = false := fun s hs =>
    ⟨(hnames s hs).no_slash, (hnames s hs).not_void⟩
  rcases hsteps with rfl | rfl
  · exact hsolid
  · exact List.forall_mem_cons.mpr
      ⟨⟨isSegment_upPiece.no_slash, isSegment_upPiece.not_void⟩, hsolid⟩

/-- Taken as pieces, such steps are all kept. -/
theorem Grounded.resolved {steps : List Text} (h : Grounded steps.reverse) :
    Path.resolvePieces [] steps = steps.reverse := by
  obtain ⟨names, hnames, rfl | rfl⟩ := h.exists_names
  · rw [resolvePieces_names hnames, List.append_nil]
  · rw [resolvePieces_cons, resolvePieces_names hnames, List.reverse_cons]
    rfl

/-! ## The pieces of a text -/

theorem splitOn_slash_cons (t : Text) : ('/' :: t).splitOn '/' = [] :: t.splitOn '/' := by
  rw [List.splitOn_cons_eq_if_modifyHead]
  rfl

/-- Joined pieces are taken like the pieces themselves. -/
theorem resolvePieces_join (h : ∀ s ∈ pieces, '/' ∉ s) :
    resolvePieces kept ((Text.join '/' pieces).splitOn '/') = resolvePieces kept pieces := by
  by_cases hnil : pieces = []
  · subst hnil
    exact resolvePieces_void rfl
  · rw [Text.join, List.splitOn_intercalate _ h hnil]

/-- The components of a path are its anchor and its pieces. -/
theorem components_eq (p : Path) : p.components =
    p.split.1.component?.toList ++ (p.text.splitOn '/').filterMap Component.ofPiece? := by
  unfold components split
  split
  · rename_i body htext
    rw [htext, splitOn_slash_cons]
    rfl
  · split
    · rename_i body hsplit
      rw [hsplit]
      rfl
    · rfl

/-- **The steps of a path are those of its pieces**, whatever the path starts with. -/
theorem reverse_steps (p : Path) : p.steps.reverse = resolvePieces [] (p.text.splitOn '/') := by
  unfold steps resolve resolvePieces
  rw [List.reverse_reverse, components_eq, List.foldl_append]
  cases p.split.1 <;> rfl

/-- A path seen from another goes on from the steps of the other. -/
theorem reverse_steps_join {p q : Path} (hq : q.isAbsolute = false) :
    (p.join q).steps.reverse = resolvePieces p.steps.reverse (q.text.splitOn '/') := by
  rw [reverse_steps, reverse_steps, ← resolvePieces_append]
  unfold join
  rw [if_neg (by simp [hq])]
  split
  · rename_i hend
    rw [Bool.or_eq_true, decide_eq_true_eq, decide_eq_true_eq] at hend
    rcases hend with hnil | hlast
    · simp only [hnil, List.nil_append, List.splitOn_nil, List.cons_append]
      rw [resolvePieces_cons [] [], resolvePieces_void rfl]
    · obtain ⟨front, hfront⟩ := List.getLast?_eq_some_iff.mp hlast
      rw [hfront, List.append_assoc, List.singleton_append, List.splitOn_append_cons_self,
        List.splitOn_append_cons_self, List.splitOn_nil, resolvePieces_append,
        resolvePieces_append, resolvePieces_append, resolvePieces_void (s := []) rfl]
  · rw [List.splitOn_append_cons_self]

theorem reverse_steps_ofSteps (absolute : Bool) (h : ∀ s ∈ pieces, '/' ∉ s) :
    (ofSteps absolute pieces).steps.reverse = resolvePieces [] pieces := by
  rw [reverse_steps]
  cases absolute with
  | false => exact resolvePieces_join h
  | true =>
    refine Eq.trans ?_ (resolvePieces_join h)
    change resolvePieces [] (('/' :: Text.join '/' pieces).splitOn '/') = _
    rw [splitOn_slash_cons, resolvePieces_cons, resolvePieces_void rfl]

theorem grounded_steps (p : Path) : Grounded p.steps.reverse := by
  rw [reverse_steps]
  exact grounded_resolvePieces fun s hs => Text.not_mem_of_mem_splitOn hs

theorem Grounded.steps_ofSteps {steps : List Text} (h : Grounded steps.reverse) (absolute : Bool) :
    (ofSteps absolute steps).steps = steps := by
  rw [← List.reverse_inj, reverse_steps_ofSteps absolute fun s hs => (h.solid s hs).1]
  exact h.resolved

theorem steps_normalize (p : Path) : p.normalize.steps = p.steps :=
  p.grounded_steps.steps_ofSteps p.isAbsolute

/-! ## The way from a root -/

theorem dropCommon_append {α : Type} [DecidableEq α] (front a b : List α) :
    dropCommon (front ++ a) (front ++ b) = dropCommon a b := by
  induction front with
  | nil => rfl
  | cons x front ih => simpa [dropCommon] using ih

/-- Two lists are what they start with in common, and what is left of them. -/
theorem dropCommon_spec {α : Type} [DecidableEq α] (a b : List α) :
    ∃ front, a = front ++ (dropCommon a b).1 ∧ b = front ++ (dropCommon a b).2 := by
  fun_induction dropCommon a b with
  | case1 as x bs ih =>
    obtain ⟨front, ha, hb⟩ := ih
    exact ⟨x :: front, by rw [List.cons_append, ← ha], by rw [List.cons_append, ← hb]⟩
  | case2 => exact ⟨[], rfl, rfl⟩
  | case3 => exact ⟨[], rfl, rfl⟩

/-- What follows a list that does not go on in the other is left of it. -/
theorem dropCommon_append_cons {α : Type} [DecidableEq α] {a base : List α} {x : α}
    (h : ¬ a ++ [x] <+: base) (rest : List α) :
    dropCommon (a ++ x :: rest) base =
      ((dropCommon a base).1 ++ x :: rest, (dropCommon a base).2) := by
  induction a generalizing base with
  | nil =>
    cases base with
    | nil => rfl
    | cons y base =>
      have hne : x ≠ y := fun heq => h ⟨base, heq ▸ rfl⟩
      exact if_neg hne
  | cons c a ih =>
    cases base with
    | nil => rfl
    | cons y base =>
      by_cases hcy : c = y
      · subst hcy
        have hrest := ih fun hprefix => h ((List.prefix_cons_inj c).mpr hprefix)
        simpa [dropCommon] using hrest
      · simp [dropCommon, hcy]

/-- The pieces of the way from a base to a path: upwards as far as needed, and down again. -/
def wayPieces (steps base : List Text) : List Text :=
  (dropCommon steps base).2.map (fun _ => upPiece) ++ (dropCommon steps base).1

/-- **What goes down from a path goes down on the way to it**, unless the base lies there. -/
theorem wayPieces_append_cons {steps base : List Text} {s : Text} (h : ¬ steps ++ [s] <+: base)
    (rest : List Text) :
    wayPieces (steps ++ s :: rest) base = wayPieces steps base ++ s :: rest := by
  unfold wayPieces
  rw [dropCommon_append_cons h, List.append_assoc]

theorem relativeTo_of_isAbsolute {p base : Path} (hp : p.isAbsolute = true)
    (hbase : base.isAbsolute = true) :
    p.relativeTo base = ofSteps false (wayPieces p.steps base.steps) := by
  unfold relativeTo
  rw [hp, hbase]
  rfl

/-- Pieces that are not void are joined to a text that does not start with a slash. -/
theorem head?_join (h : ∀ s ∈ pieces, '/' ∉ s ∧ isVoid s = false) :
    (Text.join '/' pieces).head? ≠ some '/' := by
  cases pieces with
  | nil => simp [Text.join]
  | cons s pieces =>
    obtain ⟨hslash, hvoid⟩ := h s List.mem_cons_self
    cases s with
    | nil => exact absurd hvoid (by decide)
    | cons c s =>
      have hc : c ≠ '/' := fun hc => hslash (hc ▸ List.mem_cons_self)
      have htext : ∃ rest, Text.join '/' ((c :: s) :: pieces) = c :: rest := by
        cases pieces with
        | nil => exact ⟨s, by rw [Text.join, List.intercalate_singleton]⟩
        | cons s' pieces =>
          exact ⟨_, by rw [Text.join, List.intercalate_cons_cons, List.append_assoc]; rfl⟩
      obtain ⟨rest, hrest⟩ := htext
      rw [hrest]
      simpa using hc

theorem isAbsolute_ofSteps_of_solid (h : ∀ s ∈ pieces, '/' ∉ s ∧ isVoid s = false) :
    (ofSteps false pieces).isAbsolute = false := by
  change ((Text.join '/' pieces).head? == some '/') = false
  have hhead := head?_join h
  simpa using hhead

theorem isAbsolute_ofSteps_false (h : ∀ s ∈ pieces, IsSegment s) :
    (ofSteps false pieces).isAbsolute = false :=
  isAbsolute_ofSteps_of_solid fun s hs => ⟨(h s hs).no_slash, (h s hs).not_void⟩

/-! ## Where a way leads -/

/-- What holds of `..` and of all steps holds of the way to them. -/
theorem forall_mem_wayPieces {P : Text → Prop} {steps : List Text} (base : List Text)
    (hup : P upPiece) (h : ∀ s ∈ steps, P s) : ∀ s ∈ wayPieces steps base, P s := by
  obtain ⟨front, hsteps, -⟩ := dropCommon_spec steps base
  refine List.forall_mem_append.mpr ⟨fun s hs => ?_, fun s hs => ?_⟩
  · obtain ⟨_, -, rfl⟩ := List.mem_map.mp hs
    exact hup
  · exact h s (hsteps ▸ List.mem_append_right front hs)

theorem solid_wayPieces {steps : List Text} (base : List Text)
    (h : ∀ s ∈ steps, '/' ∉ s ∧ isVoid s = false) :
    ∀ s ∈ wayPieces steps base, '/' ∉ s ∧ isVoid s = false :=
  forall_mem_wayPieces base ⟨isSegment_upPiece.no_slash, isSegment_upPiece.not_void⟩ h

/-- A way that goes upwards from a root, and then down by names. -/
theorem resolvePieces_way {root front left rest : List Text} (hroot : root = front ++ left)
    (hrest : Path.resolvePieces front.reverse rest = rest.reverse ++ front.reverse) :
    Path.resolvePieces root.reverse (left.map (fun _ => upPiece) ++ rest) =
      (front ++ rest).reverse := by
  have hups := resolvePieces_ups left.reverse front.reverse
  rw [List.length_reverse] at hups
  rw [hroot, List.reverse_append, resolvePieces_append, List.map_const', hups, hrest,
    List.reverse_append]

/-- **A way leads where it is the way to**, whatever base it starts from. -/
theorem Grounded.resolvePieces_wayPieces {steps : List Text} (h : Grounded steps.reverse)
    (base : List Text) : Path.resolvePieces base.reverse (wayPieces steps base) = steps.reverse := by
  obtain ⟨front, hsteps, hbase⟩ := dropCommon_spec steps base
  have hrest : Path.resolvePieces front.reverse (dropCommon steps base).1 =
      (dropCommon steps base).1.reverse ++ front.reverse := by
    generalize (dropCommon steps base).1 = rest at hsteps
    obtain ⟨names, hnames, rfl | rfl⟩ := h.exists_names
    · exact resolvePieces_names fun s hs => hnames s (hsteps ▸ List.mem_append_right front hs)
    · cases front with
      | nil =>
        -- a `..` at the root is kept
        obtain rfl : upPiece :: names = rest := hsteps
        rw [resolvePieces_cons, resolvePieces_names hnames, List.reverse_cons, List.append_assoc]
        rfl
      | cons s front =>
        obtain ⟨-, rfl⟩ := List.cons.inj hsteps
        exact resolvePieces_names fun s hs => hnames s (List.mem_append_right front hs)
  have hway := resolvePieces_way hbase hrest
  rwa [← hsteps] at hway

/-- **The way from a base to a path, put after the base, leads to the path.** -/
theorem steps_join_way (p base : Path) :
    (base.join (ofSteps false (wayPieces p.steps base.steps))).steps = p.steps := by
  have hsolid := solid_wayPieces base.steps p.grounded_steps.solid
  rw [← List.reverse_inj, reverse_steps_join (isAbsolute_ofSteps_of_solid hsolid)]
  change resolvePieces _ ((Text.join '/' _).splitOn '/') = _
  rw [resolvePieces_join fun s hs => (hsolid s hs).1]
  exact p.grounded_steps.resolvePieces_wayPieces base.steps

/-! ## The text of an id -/

theorem text?_ofPiece? (s : Text) :
    (Component.ofPiece? s).bind Component.text? = if isVoid s then none else some s := by
  unfold Component.ofPiece?
  split
  · rfl
  · split
    · rename_i hup
      rw [hup]
      rfl
    · rfl

/-- The steps that a path writes are its pieces that are not void. -/
theorem texts_components (p : Path) :
    p.components.filterMap Component.text? = (p.text.splitOn '/').filter fun s => !isVoid s := by
  have hpieces : ∀ pieces : List Text,
      (pieces.filterMap Component.ofPiece?).filterMap Component.text? =
        pieces.filter fun s => !isVoid s := fun pieces => by
    rw [List.filterMap_filterMap, ← List.filterMap_eq_filter]
    congr 1
    funext s
    rw [text?_ofPiece?, Option.guard]
    cases isVoid s <;> rfl
  rw [components_eq, List.filterMap_append, hpieces]
  cases p.split.1 <;> rfl

/-- The slash path of a relative path is made of its pieces that are not void. -/
theorem exists_slashed {p : Path} (h : p.isAbsolute = false) :
    ∃ pieces, (∀ s ∈ pieces, '/' ∉ s ∧ isVoid s = false) ∧ p.slashed = Text.join '/' pieces := by
  refine ⟨(p.text.splitOn '/').filter fun s => !isVoid s, fun s hs => ?_, ?_⟩
  · obtain ⟨hs, hvoid⟩ := List.mem_filter.mp hs
    exact ⟨Text.not_mem_of_mem_splitOn hs, by simpa using hvoid⟩
  · unfold slashed
    rw [h, texts_components]
    rfl

/-- Pieces joined by slashes are their own slash path. -/
theorem slashed_ofSteps (h : ∀ s ∈ pieces, '/' ∉ s ∧ isVoid s = false) :
    (ofSteps false pieces).slashed = Text.join '/' pieces := by
  have htexts : ((ofSteps false pieces).text.splitOn '/').filter (fun s => !isVoid s) = pieces := by
    change ((Text.join '/' pieces).splitOn '/').filter (fun s => !isVoid s) = pieces
    by_cases hnil : pieces = []
    · subst hnil
      rfl
    · rw [Text.join, List.splitOn_intercalate _ (fun s hs => (h s hs).1) hnil]
      exact List.filter_eq_self.mpr fun s hs => by rw [(h s hs).2]; rfl
  unfold slashed
  rw [isAbsolute_ofSteps_of_solid h, texts_components, htexts]
  rfl

/-- **The text of the id of a path** is the way to it from the root. -/
theorem text_ofPath {p root : Path} (hp : p.isAbsolute = true) (hroot : root.isAbsolute = true)
    (h : ∀ s ∈ wayPieces p.steps root.steps, IsSegment s) :
    (SourceId.ofPath p root).text = Text.join '/' (wayPieces p.steps root.steps) := by
  unfold SourceId.ofPath SourceId.ofText
  rw [relativeTo_of_isAbsolute hp hroot,
    slashed_ofSteps fun s hs => ⟨(h s hs).no_slash, (h s hs).not_void⟩]
  exact congrArg (Text.join '/') (segmentsOf_join h)

/-! ## Paths that branch off a root -/

/-- The steps follow a root for a while, or leave the root directory, and go down from there by
plain names. -/
structure BranchesOff (root steps base names : List Text) : Prop where
  steps_eq : steps = base ++ names
  base_eq : base <+: root ∨ base = [upPiece]
  plain : ∀ s ∈ names, IsPlain s

/-- The steps are those of a path that is reached from a root by plain names and steps upwards. -/
def Reached (root steps : List Text) : Prop := ∃ base names, BranchesOff root steps base names

variable {root steps : List Text}

theorem reached_root (root : List Text) : Reached root root :=
  ⟨root, [], (List.append_nil root).symm, Or.inl (List.prefix_refl root),
    fun _ h => absurd h List.not_mem_nil⟩

theorem Reached.dropLast (h : Reached root steps) : Reached root steps.dropLast := by
  obtain ⟨base, names, rfl, hbase, hplain⟩ := h
  rcases List.eq_nil_or_concat names with rfl | ⟨names, s, rfl⟩
  · rw [List.append_nil]
    refine ⟨base.dropLast, [], (List.append_nil _).symm, Or.inl ?_, hplain⟩
    rcases hbase with hbase | rfl
    · exact (List.dropLast_prefix base).trans hbase
    · exact List.nil_prefix
  · refine ⟨base, names, ?_, hbase, fun s hs => hplain s ?_⟩
    · rw [List.concat_eq_append, ← List.append_assoc, List.dropLast_concat]
    · rw [List.concat_eq_append]
      exact List.mem_append_left _ hs

theorem Reached.concat {s : Text} (h : Reached root steps) (hs : IsPlain s) :
    Reached root (steps ++ [s]) := by
  obtain ⟨base, names, rfl, hbase, hplain⟩ := h
  refine ⟨base, names ++ [s], List.append_assoc _ _ _, hbase, fun s' hs' => ?_⟩
  rcases List.mem_append.mp hs' with hs' | hs'
  · exact hplain s' hs'
  · exact List.mem_singleton.mp hs' ▸ hs

/-- Pieces without backslashes go on from what was reached. -/
theorem Reached.resolvePieces (h : Reached root kept.reverse)
    (hslash : ∀ s ∈ pieces, '/' ∉ s) (hback : ∀ s ∈ pieces, '\\' ∉ s) :
    Reached root (resolvePieces kept pieces).reverse := by
  induction pieces generalizing kept with
  | nil => exact h
  | cons s pieces ih =>
    rw [resolvePieces_cons]
    refine ih ?_ (fun s hs => hslash s (List.mem_cons_of_mem _ hs))
      fun s hs => hback s (List.mem_cons_of_mem _ hs)
    rcases void_or_up_or_name (hslash s List.mem_cons_self) with hvoid | rfl | hname
    · rw [resolvePieces_void hvoid]
      exact h
    · cases kept with
      | nil => exact ⟨[upPiece], [], rfl, Or.inr rfl, fun _ h => absurd h List.not_mem_nil⟩
      | cons s kept =>
        rw [resolvePieces_up]
        simpa using h.dropLast
    · rw [resolvePieces_name hname, List.reverse_cons]
      exact h.concat ⟨hname, hback s List.mem_cons_self⟩

theorem Reached.grounded (h : Reached root steps) (hroot : ∀ s ∈ root, IsName s) :
    Grounded steps.reverse := by
  obtain ⟨base, names, rfl, hbase, hplain⟩ := h
  have hnames : ∀ s ∈ names, IsName s := fun s hs => (hplain s hs).toIsName
  rcases hbase with hbase | rfl
  · refine ⟨(base ++ names).reverse, fun s hs => ?_, Or.inl rfl⟩
    rcases List.mem_append.mp (List.mem_reverse.mp hs) with hs | hs
    · exact hroot s (hbase.subset hs)
    · exact hnames s hs
  · refine ⟨names.reverse, fun s hs => hnames s (List.mem_reverse.mp hs), Or.inr ?_⟩
    rw [List.reverse_append]
    rfl

theorem wayPieces_upPiece (hroot : ∀ s ∈ root, IsName s) (names : List Text) :
    wayPieces (upPiece :: names) root = root.map (fun _ => upPiece) ++ upPiece :: names := by
  unfold wayPieces
  cases root with
  | nil => rfl
  | cons r root =>
    unfold dropCommon
    rw [if_neg (Ne.symm (hroot r List.mem_cons_self).not_up)]

/-- The way to what was reached stays what it is in an id. -/
theorem Reached.isSegment_wayPieces (h : Reached root steps) :
    ∀ s ∈ wayPieces steps root, IsSegment s := by
  obtain ⟨base, names, rfl, ⟨more, rfl⟩ | rfl, hplain⟩ := h
  · -- It branches off at a directory on the way to the root, maybe going down a part of it again.
    unfold wayPieces
    rw [dropCommon_append]
    exact forall_mem_wayPieces more isSegment_upPiece fun s hs => (hplain s hs).isSegment
  · -- It leaves the root directory.
    refine forall_mem_wayPieces root isSegment_upPiece (List.forall_mem_append.mpr ⟨?_, ?_⟩)
    · exact List.forall_mem_singleton.mpr isSegment_upPiece
    · exact fun s hs => (hplain s hs).isSegment

/-! ## Paths with these steps -/

theorem isAbsolute_join {p : Path} (hp : p.isAbsolute = true) (q : Path) :
    (p.join q).isAbsolute = true := by
  unfold join
  split
  · assumption
  · unfold isAbsolute at hp ⊢
    cases htext : p.text with
    | nil => rw [htext] at hp; cases hp
    | cons c t =>
      rw [htext] at hp
      split <;> exact hp

theorem isAbsolute_of_join {p q : Path} (hq : q.isAbsolute = false)
    (h : (p.join q).isAbsolute = true) : p.isAbsolute = true := by
  unfold join at h
  rw [if_neg (by simp [hq])] at h
  unfold isAbsolute at h hq ⊢
  cases htext : p.text with
  | nil =>
    simp only [htext, decide_true, Bool.true_or, if_true, List.nil_append] at h
    rw [hq] at h
    cases h
  | cons c t =>
    rw [htext] at h
    split at h <;> exact h

theorem text_join_ne_nil (p : Path) {q : Path} (hq : q.text ≠ []) : (p.join q).text ≠ [] := by
  unfold join
  split
  · exact hq
  · split
    · exact List.append_ne_nil_of_right_ne_nil _ hq
    · exact List.append_ne_nil_of_right_ne_nil _ (List.cons_ne_nil _ _)

theorem shorten_cons {s : Text} (h : isVoid s = false) (kept : List Text) :
    shorten (s :: kept) = (s :: kept) :: shorten kept := by
  rw [shorten, if_neg (by simp [h])]

theorem head?_shorten (h : ∀ s ∈ kept, isVoid s = false) : (shorten kept).head? = some kept := by
  cases kept with
  | nil => rfl
  | cons s kept =>
    rw [shorten_cons (h s List.mem_cons_self)]
    rfl

/-- The directory above an absolute path has the steps before the last. -/
theorem parent?_ofSteps {s : Text} (h : ∀ s' ∈ steps ++ [s], '/' ∉ s' ∧ isVoid s' = false) :
    (ofSteps true (steps ++ [s])).parent? = some (ofSteps true steps) := by
  have hsplit : (ofSteps true (steps ++ [s])).split = (.root, steps ++ [s]) := by
    refine congrArg (Prod.mk Anchor.root)
      (List.splitOn_intercalate _ (fun s' hs' => (h s' hs').1) ?_)
    simp
  unfold parent? above
  rw [hsplit]
  dsimp only
  rw [List.reverse_concat, shorten_cons (h s List.mem_concat_self).2, List.tail_cons,
    List.head?_map, head?_shorten fun s' hs' => (h s' ?_).2]
  · simp [ofSteps]
  · exact List.mem_append_left _ (List.mem_reverse.mp hs')

theorem parent?_ofSteps_nil : (ofSteps true []).parent? = none := rfl

/-- A step upwards before others, as a text. -/
theorem ofSteps_up (h : steps ≠ []) :
    ofSteps true (upPiece :: steps) = ⟨['/', '.', '.'] ++ (ofSteps true steps).text⟩ := by
  change (⟨'/' :: Text.join '/' (upPiece :: steps)⟩ : Path) = _
  rw [Text.join, List.intercalate_cons_of_ne_nil h]
  rfl

/-- The steps of the path with the steps that were reached. -/
theorem Reached.steps_ofSteps (h : Reached root steps) (hroot : ∀ s ∈ root, IsName s) :
    (ofSteps true steps).steps = steps :=
  (h.grounded hroot).steps_ofSteps true

/-- **The id of a path leads back to the path** from the root that it is seen from. -/
theorem normalize_ofPath {p root : Path} (hp : p.isAbsolute = true) (hroot : root.isAbsolute = true)
    (h : ∀ s ∈ wayPieces p.steps root.steps, IsSegment s) :
    (root.join (SourceId.ofPath p root).path).normalize = p.normalize := by
  have hpath : (SourceId.ofPath p root).path = ofSteps false (wayPieces p.steps root.steps) :=
    congrArg Path.mk (text_ofPath hp hroot h)
  unfold normalize
  rw [isAbsolute_join hroot, hp, hpath, steps_join_way]

end Path

end SolPlan
