import SolPlan.Proofs.FileTree.Edit

/-!
# What changes add

A change that succeeds takes nothing away: directories stay directories, and files stay files,
though they may hold something else (`Keeps`). So a path that leads somewhere goes on leading there.
What is new stands inside some places, or is a directory on the way to them (`Adds`). The way is
that of a path as it is written (`Path.Passes`).

Results:
* `Keeps.find`: what a path leads to, it leads to later;
* `isDirectory_of_makeDirectories`, `makeDirectories_of_isDirectory`: a directory that was created
  is there, and one that is there is not created again;
* **`adds_makeDirectories`**, `adds_copyFile`: what changes add.
-/

namespace SolPlan

namespace Path

/-- Something at the path stands inside some places, and the way to it is inside, or on the way to
them. -/
structure EndsInside (inside way : List Text → Prop) (p : Path) : Prop where
  isAbsolute : p.isAbsolute = true
  here : inside p.place
  onWay : ∀ place, p.Passes place → inside place ∨ way place

end Path

namespace FileTree

variable {t t' t'' : FileTree} {l l' : Location} {p : Path} {place names : List Text}
  {content : Content} {inside way : List Text → Prop}

/-! ## What is there stays there -/

/-- Directories stay directories, and files stay files, whatever they hold. -/
structure Keeps (t t' : FileTree) : Prop where
  directory : ∀ l, t.entry? l = some .directory → t'.entry? l = some .directory
  file : ∀ l content, t.entry? l = some (.file content) →
    ∃ content', t'.entry? l = some (.file content')

namespace Keeps

theorem refl (t : FileTree) : Keeps t t := ⟨fun _ h => h, fun _ content h => ⟨content, h⟩⟩

theorem trans (h : Keeps t t') (h' : Keeps t' t'') : Keeps t t'' := by
  refine ⟨fun l hl => h'.directory l (h.directory l hl), fun l content hl => ?_⟩
  obtain ⟨content', hl'⟩ := h.file l content hl
  exact h'.file l content' hl'

theorem isSome (h : Keeps t t') (hl : (t.entry? l).isSome = true) :
    (t'.entry? l).isSome = true := by
  obtain ⟨e, he⟩ := Option.isSome_iff_exists.mp hl
  cases e with
  | directory => rw [h.directory l he]; rfl
  | file content =>
    obtain ⟨content', he'⟩ := h.file l content he
    rw [he']
    rfl

theorem step (h : Keeps t t') {piece : Text} (hstep : t.step l piece = .ok l') :
    t'.step l piece = .ok l' := by
  unfold FileTree.step at hstep ⊢
  split at hstep
  · cases hstep
  · rename_i hdirectory
    rw [if_neg (by simp [h.directory l (Decidable.not_not.mp hdirectory)])]
    split at hstep
    · rename_i hvoid
      rwa [if_pos hvoid]
    · rename_i hvoid
      rw [if_neg hvoid]
      split at hstep
      · rename_i hup
        rwa [if_pos hup]
      · rename_i hup
        rw [if_neg hup]
        split at hstep
        · cases hstep
        · rename_i name _
          split at hstep
          · cases hstep
          · rename_i e he
            obtain ⟨e', he'⟩ := Option.isSome_iff_exists.mp
              (h.isSome (l := l ++ [name]) (he ▸ rfl))
            rw [he']
            exact hstep

theorem follow (h : Keeps t t') {pieces : List Text} (hfollow : t.follow l pieces = .ok l') :
    t'.follow l pieces = .ok l' := by
  induction pieces generalizing l with
  | nil => exact hfollow
  | cons piece pieces ih =>
    obtain ⟨next, hstep, hrest⟩ := follow_cons_ok hfollow
    rw [FileTree.follow, h.step hstep]
    exact ih hrest

/-- **What a path leads to, it leads to later.** -/
theorem find (h : Keeps t t') (hfind : t.find p = .ok l) : t'.find p = .ok l := by
  unfold FileTree.find at hfind ⊢
  split at hfind
  · cases hfind
  · rename_i hnull
    rw [if_neg hnull]
    split at hfind
    · exact h.follow hfind
    · cases hfind

theorem isDirectory (h : Keeps t t') (hp : t.isDirectory p = true) : t'.isDirectory p = true := by
  obtain ⟨l, hfind, hl⟩ := isDirectory_iff.mp hp
  exact isDirectory_iff.mpr ⟨l, h.find hfind, h.directory l hl⟩

theorem fileAt (h : Keeps t t') (hfile : t.FileAt place content) :
    ∃ content', t'.FileAt place content' := by
  obtain ⟨l, rfl, hl⟩ := hfile
  obtain ⟨content', hl'⟩ := h.file l content hl
  exact ⟨content', l, rfl, hl'⟩

/-- What holds files goes on holding some. -/
theorem holdsFiles (h : Keeps t t') (hp : t.holdsFiles p = true) : t'.holdsFiles p = true := by
  unfold FileTree.holdsFiles at hp ⊢
  split at hp
  · rename_i l hfind
    obtain ⟨names, hnames⟩ := List.exists_mem_of_ne_nil _ (of_decide_eq_true hp)
    obtain ⟨hne, content, hfile⟩ := mem_filesBelow.mp hnames
    rw [h.find hfind]
    exact decide_eq_true (List.ne_nil_of_mem (mem_filesBelow.mpr ⟨hne, h.fileAt hfile⟩))
  · cases hp

end Keeps

/-- Directories and files stay, and what is new stands inside some places, or is a directory on the
way to them. -/
structure Adds (inside way : List Text → Prop) (t t' : FileTree) : Prop extends Keeps t t' where
  outside : ∀ l : Location, ¬ inside l.texts → t'.entry? l = t.entry? l ∨
    t.entry? l = none ∧ t'.entry? l = some .directory ∧ way l.texts

namespace Adds

theorem refl (inside way : List Text → Prop) (t : FileTree) : Adds inside way t t :=
  ⟨Keeps.refl t, fun _ _ => Or.inl rfl⟩

theorem trans (h : Adds inside way t t') (h' : Adds inside way t' t'') :
    Adds inside way t t'' := by
  refine ⟨h.toKeeps.trans h'.toKeeps, fun l hl => ?_⟩
  rcases h.outside l hl with hfirst | ⟨hnone, hmade, hway⟩
  · rw [← hfirst]
    exact h'.outside l hl
  · exact Or.inr ⟨hnone, h'.directory l hmade, hway⟩

theorem mono {inside' way' : List Text → Prop} (h : Adds inside way t t')
    (hinside : ∀ place, inside place → inside' place) (hway : ∀ place, way place → way' place) :
    Adds inside' way' t t' :=
  ⟨h.toKeeps, fun l hl => (h.outside l fun hl' => hl (hinside _ hl')).imp_right
    fun ⟨hnone, hmade, hl'⟩ => ⟨hnone, hmade, hway _ hl'⟩⟩

/-- Files that are not inside are the same. -/
theorem fileAt_iff (h : Adds inside way t t') (hplace : ¬ inside place) :
    t'.FileAt place content ↔ t.FileAt place content := by
  have hsame : ∀ l : Location, l.texts = place →
      (t'.entry? l = some (.file content) ↔ t.entry? l = some (.file content)) := by
    rintro l rfl
    rcases h.outside l hplace with hsame | ⟨hnone, hmade, -⟩
    · rw [hsame]
    · rw [hnone, hmade]
      exact ⟨nofun, nofun⟩
  exact exists_congr fun l => and_congr_right (hsame l)

end Adds

/-! ## Creating directories -/

theorem adds_makeDirectory (h : t.makeDirectory p = .ok t') (hp : inside p.place ∨ way p.place) :
    Adds inside way t t' := by
  obtain ⟨new, hnew, hfree, hentry⟩ := entry?_makeDirectory h
  have hother : ∀ l e, t.entry? l = some e → t'.entry? l = some e := fun l e hl => by
    rw [hentry, if_neg, hl]
    rintro rfl
    rw [hfree] at hl
    cases hl
  refine ⟨⟨fun l => hother l _, fun l content hl => ⟨content, hother l _ hl⟩⟩, fun l hl => ?_⟩
  rw [hentry]
  by_cases hl' : l = new
  · subst hl'
    rw [← hnew] at hp
    rw [if_pos rfl]
    exact Or.inr ⟨hfree, rfl, hp.resolve_left hl⟩
  · rw [if_neg hl']
    exact Or.inl rfl

theorem keeps_makeDirectory (h : t.makeDirectory p = .ok t') : Keeps t t' := by
  have hadds : Adds (fun _ => True) (fun _ => True) t t' := adds_makeDirectory h (Or.inl trivial)
  exact hadds.toKeeps

theorem adds_makeFirst {paths : List Path}
    (hpaths : ∀ q ∈ paths, inside q.place ∨ way q.place) :
    Adds inside way t (t.makeFirst paths).1 := by
  induction paths generalizing t with
  | nil => exact Adds.refl inside way t
  | cons p above ih =>
    have hp := hpaths p List.mem_cons_self
    unfold makeFirst
    split
    · exact Adds.refl inside way t
    · split
      · exact adds_makeDirectory ‹_› hp
      · have habove := ih (t := t) fun q hq => hpaths q (List.mem_cons_of_mem _ hq)
        split
        · rename_i hfirst
          rw [hfirst] at habove
          exact habove
        · rename_i t₁ hfirst
          rw [hfirst] at habove
          split
          · exact habove.trans (adds_makeDirectory ‹_› hp)
          · exact habove
      · exact Adds.refl inside way t

/-- **Directories that are created** are on the way of the path. -/
theorem adds_makeDirectories (hp : p.isAbsolute = true)
    (hway : ∀ place, p.Passes place → inside place ∨ way place) :
    Adds inside way t (t.makeDirectories p).1 := by
  refine adds_makeFirst fun q hq => hway _ (q.passes_place.mono ?_)
  rcases List.mem_cons.mp hq with rfl | hq
  · exact List.prefix_rfl
  · exact (Path.written_of_mem_above hp hq).2

theorem keeps_makeDirectories (hp : p.isAbsolute = true)
    (h : t.makeDirectories p = (t', .ok ())) : Keeps t t' := by
  have hadds : Adds (fun _ => True) (fun _ => True) t (t.makeDirectories p).1 :=
    adds_makeDirectories hp fun _ _ => Or.inl trivial
  rw [h] at hadds
  exact hadds.toKeeps

/-! ## Directories that are there -/

theorem follow_voids (hl : t.entry? l = some .directory) (n : Nat) :
    t.follow l (List.replicate n []) = .ok l := by
  induction n with
  | zero => rfl
  | succ n ih =>
    have hstep : t.step l [] = .ok l := if_neg (by simp [hl])
    rw [List.replicate_succ, follow, hstep]
    exact ih

/-- The path of a slot leads to what comes to stand in it. -/
theorem find_of_slot {special : FileFault} {folder : Location} {name : FileName}
    (h : t.slot p special = .ok (folder, name)) (hkeeps : Keeps t t')
    (hthere : t'.entry? (folder ++ [name]) = some .directory) :
    t'.find p = .ok (folder ++ [name]) := by
  obtain ⟨pieces, before, hsplit, hlast, hfollow, hfolder⟩ := slot_spec h
  obtain ⟨-, n, rfl⟩ := lastPiece_spec hlast
  have hnull : p.text.any (fun c => c.toNat == 0) = false := by
    unfold slot at h
    split at h
    · cases h
    · rename_i hnull
      simpa using hnull
  unfold find
  rw [hnull, hsplit]
  change t'.follow [] (before ++ name.text :: List.replicate n []) = _
  rw [follow_append, hkeeps.follow hfollow]
  change t'.follow folder (name.text :: List.replicate n []) = _
  rw [follow, step_entry (hkeeps.directory _ hfolder) (hthere ▸ rfl)]
  exact follow_voids hthere n

theorem isDirectory_of_makeDirectory (h : t.makeDirectory p = .ok t') :
    t'.isDirectory p = true := by
  obtain ⟨folder, name, hslot, -, hentry⟩ := slot_of_makeDirectory h
  have hthere : t'.entry? (folder ++ [name]) = some .directory := by rw [hentry, if_pos rfl]
  exact isDirectory_iff.mpr ⟨_, find_of_slot hslot (keeps_makeDirectory h) hthere, hthere⟩

/-- **What was created is there.** -/
theorem isDirectory_of_makeDirectories (hp : p.text ≠ [])
    (h : t.makeDirectories p = (t', .ok ())) : t'.isDirectory p = true := by
  have hthere : ∀ {t : FileTree} {fault : FileFault},
      (t, if t.isDirectory p then (.ok () : Except FileFault Unit) else .error fault) =
        (t', .ok ()) → t'.isDirectory p = true := fun heq => by
    obtain ⟨rfl, hok⟩ := Prod.mk.inj heq
    split at hok
    · assumption
    · cases hok
  unfold makeDirectories makeFirst at h
  rw [if_neg hp] at h
  split at h
  · cases h
    exact isDirectory_of_makeDirectory ‹_›
  · split at h
    · cases h
    · split at h
      · cases h
        exact isDirectory_of_makeDirectory ‹_›
      · exact hthere h
  · exact hthere h

/-- Where a path leads somewhere, a slot is not missed because something is not found. -/
theorem slot_ne_notFound (hfind : t.find p = .ok l) :
    t.slot p .exists ≠ .error .notFound := fun h => by
  obtain ⟨pieces, hsplit, hfollow⟩ := find_ok hfind
  unfold slot at h
  split at h
  · cases h
  · rw [hsplit] at h
    dsimp only at h
    split at h
    · cases h
    · rename_i last before hlast
      obtain ⟨-, n, hpieces⟩ := lastPiece_spec hlast
      rw [hpieces] at hfollow
      obtain ⟨folder, hbefore, -⟩ := follow_append_ok hfollow
      simp only [hbefore, bind, Except.bind, throw, throwThe, MonadExceptOf.throw, pure,
        Except.pure] at h
      split at h
      · cases h
      · split at h
        · cases h
        · split at h <;> cases h

/-- **A directory that is there is not created again.** -/
theorem makeDirectories_of_isDirectory (h : t.isDirectory p = true) :
    t.makeDirectories p = (t, .ok ()) := by
  have hmake : ∃ fault, t.makeDirectory p = .error fault ∧ fault ≠ .notFound := by
    obtain ⟨l, hfind, hl⟩ := isDirectory_iff.mp h
    unfold makeDirectory
    cases hslot : t.slot p .exists with
    | error fault =>
      refine ⟨fault, rfl, ?_⟩
      rintro rfl
      exact slot_ne_notFound hfind hslot
    | ok found =>
      obtain ⟨folder, name⟩ := found
      have htexts := texts_of_slot hslot
      rw [← texts_of_find hfind] at htexts
      refine ⟨.exists, ?_, by decide⟩
      change (if (t.entry? (folder ++ [name])).isSome then _ else _) = _
      rw [Location.texts_inj htexts, hl]
      rfl
  obtain ⟨fault, hfault, hne⟩ := hmake
  unfold makeDirectories makeFirst
  rw [hfault]
  split
  · rfl
  · split
    · rename_i heq
      cases heq
    · rename_i heq
      cases heq
      exact absurd rfl hne
    · rfl

/-- What holds files is a directory. -/
theorem isDirectory_of_holdsFiles (h : t.holdsFiles p = true) : t.isDirectory p = true := by
  unfold holdsFiles at h
  split at h
  · rename_i l hfind
    obtain ⟨names, hnames⟩ := List.exists_mem_of_ne_nil _ (of_decide_eq_true h)
    obtain ⟨hne, content, hfile⟩ := mem_filesBelow.mp hnames
    rw [← Location.texts_append, fileAt_texts] at hfile
    exact isDirectory_iff.mpr ⟨l, hfind, entry?_of_append (hfile ▸ rfl) hne⟩
  · cases h

/-! ## Writing files -/

theorem adds_writeFile (h : t.writeFile p content = .ok t') (hp : inside p.place) :
    Adds inside way t t' := by
  obtain ⟨new, hnew, hfree, hentry⟩ := entry?_writeFile h
  refine ⟨⟨fun l hl => ?_, fun l content' hl => ?_⟩, fun l hl => Or.inl ?_⟩
  · rw [hentry, if_neg, hl]
    rintro rfl
    exact hfree hl
  · rw [hentry]
    split
    · exact ⟨content, rfl⟩
    · exact ⟨content', hl⟩
  · rw [hentry, if_neg]
    rintro rfl
    exact hl (hnew ▸ hp)

/-- **A copy** is inside. -/
theorem adds_copyFile {source : Location} (h : t.copyFile source p = .ok t')
    (hp : inside p.place) : Adds inside way t t' := by
  unfold copyFile at h
  cases hempty : t.writeFile p (.text []) with
  | error fault => rw [hempty] at h; cases h
  | ok t₁ =>
    rw [hempty] at h
    exact (adds_writeFile hempty hp).trans (adds_writeFile h hp)

end FileTree

end SolPlan
