import SolPlan.Proofs.Package.Unpack

/-!
# The order in which packages are unpacked

A dependency is unpacked before what it depends on. A package that was unpacked is passed over with
all that it depends on: what it depends on was unpacked then, or would have been, had it been
reached. If all that have the same name and version are the same dependency (`IsUniform`), nothing
is missed: each package is unpacked, where it occurs first.

For this no dependency may occur below itself, since it would be passed over while its own
dependencies are still to come. It cannot, as it is smaller than what holds it.

Results:
* `unpackAfter_ids`: the packages that are unpacked;
* **`packages_eq_eraseDups`**: they are those of the tree, each where it occurs first;
* `exists_inTurn`: unpacking a dependency is unpacking packages one after the other.
-/

namespace SolPlan

variable {cachePath : Path} {t t₁ t' : FileTree}

namespace Dependency

mutual

/-- The packages of a dependency and what it depends on, after those that are `done`. -/
def packagesAfter (done : List PackageId) : Dependency → List PackageId
  | mk package dependencies =>
    if package.id ∈ done then done else allPackagesAfter (done ++ [package.id]) dependencies

/-- The packages of several dependencies and what they depend on, after those that are `done`. -/
def allPackagesAfter (done : List PackageId) : List Dependency → List PackageId
  | [] => done
  | d :: ds => allPackagesAfter (packagesAfter done d) ds

end

/-- The packages that a dependency brings. -/
def packages (d : Dependency) : List PackageId := packagesAfter [] d

mutual

/-- What is unpacked are the packages that the dependency brings. -/
theorem unpackAfter_ids {cache : Path} {done unpacked : List Unpacked} {t t' : FileTree} :
    ∀ d : Dependency, unpackAfter cache done d t = (t', .ok unpacked) →
      unpacked.map Unpacked.id = packagesAfter (done.map Unpacked.id) d
  | mk package dependencies, h => by
    have hseen : done.any (·.id = package.id) = true ↔ package.id ∈ done.map Unpacked.id := by
      simp [List.any_eq_true, List.mem_map]
    unfold unpackAfter at h
    unfold packagesAfter
    split at h
    · rename_i hany
      rw [if_pos (hseen.mp hany)]
      cases h
      rfl
    · rename_i hany
      rw [if_neg fun hmem => hany (hseen.mpr hmem)]
      split at h
      · cases h
      · rw [unpackAllAfter_ids dependencies h, List.map_append]
        rfl

theorem unpackAllAfter_ids {cache : Path} {done unpacked : List Unpacked} {t t' : FileTree} :
    ∀ ds : List Dependency, unpackAllAfter cache done ds t = (t', .ok unpacked) →
      unpacked.map Unpacked.id = allPackagesAfter (done.map Unpacked.id) ds
  | [], h => by
    unfold unpackAllAfter at h
    cases h
    rfl
  | d :: ds, h => by
    unfold unpackAllAfter at h
    unfold allPackagesAfter
    split at h
    · cases h
    · rename_i hfirst
      rw [unpackAllAfter_ids ds h, unpackAfter_ids d hfirst]

end

mutual

theorem nodup_packagesAfter {done : List PackageId} (h : done.Nodup) :
    ∀ d : Dependency, (packagesAfter done d).Nodup
  | mk package dependencies => by
    unfold packagesAfter
    split
    · exact h
    · rename_i hnew
      refine nodup_allPackagesAfter ?_ dependencies
      refine List.nodup_append.mpr ⟨h, by simp, fun a ha b hb => ?_⟩
      rw [List.mem_singleton.mp hb]
      exact fun he => hnew (he ▸ ha)

theorem nodup_allPackagesAfter {done : List PackageId} (h : done.Nodup) :
    ∀ ds : List Dependency, (allPackagesAfter done ds).Nodup
  | [] => h
  | d :: ds => nodup_allPackagesAfter (nodup_packagesAfter h d) ds

end

/-- No package is unpacked twice. -/
theorem nodup_packages (d : Dependency) : d.packages.Nodup := nodup_packagesAfter List.nodup_nil d

/-! ## The parts of a dependency -/

mutual

/-- A dependency and all that it depends on, itself first. -/
def parts : Dependency → List Dependency
  | mk package dependencies => mk package dependencies :: allParts dependencies

/-- Several dependencies and all that they depend on. -/
def allParts : List Dependency → List Dependency
  | [] => []
  | d :: ds => parts d ++ allParts ds

end

/-- Dependencies of the same name and version are the same, with all that they depend on. -/
def IsUniform (ds : List Dependency) : Prop := ∀ x ∈ ds, ∀ y ∈ ds, x.id = y.id → x = y

theorem mem_parts_self (d : Dependency) : d ∈ d.parts := by
  obtain ⟨package, dependencies⟩ := d
  exact List.mem_cons_self

theorem mem_allParts_of_mem {d : Dependency} {ds : List Dependency} (h : d ∈ ds) :
    d ∈ allParts ds := by
  induction ds with
  | nil => cases h
  | cons first ds ih =>
    rcases List.mem_cons.mp h with rfl | h
    · exact List.mem_append_left _ (mem_parts_self d)
    · exact List.mem_append_right _ (ih h)

mutual

theorem brought_eq_map_parts : ∀ d : Dependency, d.brought = d.parts.map package
  | mk package dependencies => by
    rw [brought, parts, List.map_cons, allBrought_eq_map_allParts dependencies]
    rfl

theorem allBrought_eq_map_allParts :
    ∀ ds : List Dependency, allBrought ds = (allParts ds).map package
  | [] => rfl
  | d :: ds => by
    rw [allBrought, allParts, List.map_append, brought_eq_map_parts d,
      allBrought_eq_map_allParts ds]

end

mutual

/-- The parts of a part are parts. -/
theorem mem_parts_trans {x y : Dependency} (hy : y ∈ x.parts) :
    ∀ d : Dependency, x ∈ d.parts → y ∈ d.parts
  | mk package dependencies, hx => by
    rcases List.mem_cons.mp hx with rfl | hx
    · exact hy
    · exact List.mem_cons_of_mem _ (mem_allParts_trans hy dependencies hx)

theorem mem_allParts_trans {x y : Dependency} (hy : y ∈ x.parts) :
    ∀ ds : List Dependency, x ∈ allParts ds → y ∈ allParts ds
  | [], hx => absurd hx List.not_mem_nil
  | d :: ds, hx => by
    rcases List.mem_append.mp hx with hx | hx
    · exact List.mem_append_left _ (mem_parts_trans hy d hx)
    · exact List.mem_append_right _ (mem_allParts_trans hy ds hx)

end

mutual

theorem sizeOf_le_of_mem_parts {x : Dependency} :
    ∀ d : Dependency, x ∈ d.parts → sizeOf x ≤ sizeOf d
  | mk package dependencies, hx => by
    rcases List.mem_cons.mp hx with rfl | hx
    · exact Nat.le_refl _
    · have := sizeOf_le_of_mem_allParts dependencies hx
      simp only [mk.sizeOf_spec]
      omega

theorem sizeOf_le_of_mem_allParts {x : Dependency} :
    ∀ ds : List Dependency, x ∈ allParts ds → sizeOf x ≤ sizeOf ds
  | [], hx => absurd hx List.not_mem_nil
  | d :: ds, hx => by
    simp only [List.cons.sizeOf_spec]
    rcases List.mem_append.mp hx with hx | hx
    · have := sizeOf_le_of_mem_parts d hx
      omega
    · have := sizeOf_le_of_mem_allParts ds hx
      omega

end

/-- No dependency is below itself. -/
theorem not_mem_allParts_self (package : Package) (dependencies : List Dependency) :
    mk package dependencies ∉ allParts dependencies := fun hmem => by
  have := sizeOf_le_of_mem_allParts dependencies hmem
  simp only [mk.sizeOf_spec] at this
  omega

/-! ## Each package where it occurs first -/

/-- Packages with one more, unless it is among them. -/
def addId (done : List PackageId) (id : PackageId) : List PackageId :=
  if id ∈ done then done else done ++ [id]

theorem mem_foldl_addId {ids done : List PackageId} {id : PackageId} :
    id ∈ ids.foldl addId done ↔ id ∈ done ∨ id ∈ ids := by
  induction ids generalizing done with
  | nil => simp
  | cons first ids ih =>
    rw [List.foldl_cons, ih, List.mem_cons, ← or_assoc]
    refine or_congr_left ?_
    unfold addId
    split
    · rename_i hfirst
      exact ⟨Or.inl, fun h => h.elim (fun h => h) fun he => he ▸ hfirst⟩
    · rw [List.mem_append, List.mem_singleton]

theorem foldl_addId_of_forall_mem {ids done : List PackageId} (h : ∀ id ∈ ids, id ∈ done) :
    ids.foldl addId done = done := by
  induction ids with
  | nil => rfl
  | cons first ids ih =>
    rw [List.foldl_cons, addId, if_pos (h first List.mem_cons_self)]
    exact ih fun id hid => h id (List.mem_cons_of_mem _ hid)

/-- Adding packages one by one leaves out those that came before. -/
theorem foldl_addId (ids done : List PackageId) :
    ids.foldl addId done = done ++ (ids.removeAll done).eraseDups := by
  induction ids generalizing done with
  | nil => simp [List.removeAll]
  | cons first ids ih =>
    rw [List.foldl_cons, ih]
    unfold addId
    split
    · rename_i hmem
      simp [List.removeAll, hmem]
    · rename_i hnew
      have hcons : (first :: ids).removeAll done = first :: ids.removeAll done := by
        simp [List.removeAll, hnew]
      have hfilter : ids.removeAll (done ++ [first]) =
          (ids.removeAll done).filter fun id => !id == first := by
        unfold List.removeAll
        rw [List.filter_filter]
        refine List.filter_congr fun id _ => ?_
        simp [Bool.and_comm, beq_eq_decide]
      rw [hcons, hfilter, List.eraseDups_cons, List.append_assoc]
      rfl

/-- What is done is done with all that it depends on. -/
def IsClosed (done : List PackageId) (ds : List Dependency) : Prop :=
  ∀ x ∈ ds, x.id ∈ done → ∀ q ∈ x.brought, q.id ∈ done

variable {all : List Dependency}

mutual

theorem packagesAfter_eq_foldl {done : List PackageId} (huniform : IsUniform all) :
    ∀ d : Dependency, (∀ x ∈ d.parts, x ∈ all) → IsClosed done d.parts →
      packagesAfter done d = (d.brought.map Package.id).foldl addId done
  | mk package dependencies, hall, hclosed => by
    unfold packagesAfter
    split
    · rename_i hdone
      refine (foldl_addId_of_forall_mem fun id hid => ?_).symm
      obtain ⟨q, hq, rfl⟩ := List.mem_map.mp hid
      exact hclosed _ (mem_parts_self _) hdone q hq
    · rename_i hnew
      rw [brought, List.map_cons, List.foldl_cons, addId, if_neg hnew]
      refine allPackagesAfter_eq_foldl huniform dependencies
        (fun x hx => hall x (List.mem_cons_of_mem _ hx)) fun x hx hdone q hq => ?_
      rcases List.mem_append.mp hdone with hdone | hself
      · exact List.mem_append_left _ (hclosed x (List.mem_cons_of_mem _ hx) hdone q hq)
      · -- the package itself is not below itself
        have hsame := huniform x (hall x (List.mem_cons_of_mem _ hx)) _ (hall _ (mem_parts_self _))
          (List.mem_singleton.mp hself)
        exact absurd (hsame ▸ hx) (not_mem_allParts_self package dependencies)

theorem allPackagesAfter_eq_foldl {done : List PackageId} (huniform : IsUniform all) :
    ∀ ds : List Dependency, (∀ x ∈ allParts ds, x ∈ all) → IsClosed done (allParts ds) →
      allPackagesAfter done ds = ((allBrought ds).map Package.id).foldl addId done
  | [], _, _ => rfl
  | d :: ds, hall, hclosed => by
    have hd : ∀ x ∈ d.parts, x ∈ all := fun x hx => hall x (List.mem_append_left _ hx)
    have hds : ∀ x ∈ allParts ds, x ∈ all := fun x hx => hall x (List.mem_append_right _ hx)
    rw [allPackagesAfter, allBrought, List.map_append, List.foldl_append,
      packagesAfter_eq_foldl huniform d hd fun x hx => hclosed x (List.mem_append_left _ hx)]
    refine allPackagesAfter_eq_foldl huniform ds hds fun x hx hdone q hq => ?_
    rw [mem_foldl_addId] at hdone ⊢
    rcases hdone with hdone | hbefore
    · exact Or.inl (hclosed x (List.mem_append_right _ hx) hdone q hq)
    · -- it is a part of the dependency before it
      rw [brought_eq_map_parts, List.map_map] at hbefore
      obtain ⟨y, hy, hid⟩ := List.mem_map.mp hbefore
      obtain rfl := huniform y (hd y hy) x (hds x hx) hid
      rw [brought_eq_map_parts] at hq ⊢
      obtain ⟨z, hz, rfl⟩ := List.mem_map.mp hq
      exact Or.inr (List.mem_map_of_mem (List.mem_map_of_mem (mem_parts_trans hz d hy)))

end

/-- **The packages that are unpacked** are those of the tree in their order, each where it occurs
first. -/
theorem packages_eq_eraseDups {d : Dependency} (huniform : IsUniform d.parts) :
    d.packages = (d.brought.map Package.id).eraseDups := by
  have hall : (d.brought.map Package.id).removeAll [] = d.brought.map Package.id :=
    List.filter_eq_self.mpr fun _ _ => rfl
  unfold packages
  rw [packagesAfter_eq_foldl huniform d (fun _ hx => hx) fun _ _ h => absurd h List.not_mem_nil,
    foldl_addId, hall, List.nil_append]

/-! ## One package after the other -/

end Dependency

/-- Packages were unpacked one after the other, each with these copies. -/
inductive InTurn (cachePath : Path) : List (Package × List Path) → FileTree → FileTree → Prop
  | nil (t : FileTree) : InTurn cachePath [] t t
  | cons {p : Package} {copies : List Path} {steps : List (Package × List Path)}
      {t t₁ t' : FileTree} (first : unpackPackage cachePath p t = (t₁, .ok copies))
      (rest : InTurn cachePath steps t₁ t') : InTurn cachePath ((p, copies) :: steps) t t'

namespace InTurn

variable {steps steps' : List (Package × List Path)}

theorem append (h : InTurn cachePath steps t t₁) (h' : InTurn cachePath steps' t₁ t') :
    InTurn cachePath (steps ++ steps') t t' := by
  induction h with
  | nil => exact h'
  | cons first _ ih => exact cons first (ih h')

theorem split (h : InTurn cachePath (steps ++ steps') t t') :
    ∃ t₁, InTurn cachePath steps t t₁ ∧ InTurn cachePath steps' t₁ t' := by
  induction steps generalizing t with
  | nil => exact ⟨t, nil t, h⟩
  | cons step steps ih =>
    cases h with
    | cons first rest =>
      obtain ⟨t₁, hfront, hback⟩ := ih rest
      exact ⟨t₁, cons first hfront, hback⟩

end InTurn

/-- What is answered for a package and its copies. -/
def unpackedOf (step : Package × List Path) : Unpacked := ⟨step.1.id, step.2⟩

namespace Dependency

mutual

/-- **Unpacking a dependency** is unpacking packages of it one after the other. -/
theorem exists_inTurn {done unpacked : List Unpacked} {t t' : FileTree} :
    ∀ d : Dependency, unpackAfter cachePath done d t = (t', .ok unpacked) →
      ∃ steps, InTurn cachePath steps t t' ∧ unpacked = done ++ steps.map unpackedOf ∧
        ∀ step ∈ steps, step.1 ∈ d.brought
  | mk package dependencies, h => by
    unfold unpackAfter at h
    split at h
    · cases h
      exact ⟨[], .nil _, (List.append_nil _).symm, nofun⟩
    · split at h
      · cases h
      · rename_i t₁ copies hunpack
        obtain ⟨steps, hsteps, rfl, hmem⟩ := exists_inTurn_all dependencies h
        refine ⟨(package, copies) :: steps, .cons hunpack hsteps, ?_, fun step hstep => ?_⟩
        · rw [List.append_assoc]
          rfl
        · rcases List.mem_cons.mp hstep with rfl | hstep
          · exact List.mem_cons_self
          · exact List.mem_cons_of_mem _ (hmem step hstep)

theorem exists_inTurn_all {done unpacked : List Unpacked} {t t' : FileTree} :
    ∀ ds : List Dependency, unpackAllAfter cachePath done ds t = (t', .ok unpacked) →
      ∃ steps, InTurn cachePath steps t t' ∧ unpacked = done ++ steps.map unpackedOf ∧
        ∀ step ∈ steps, step.1 ∈ allBrought ds
  | [], h => by
    unfold unpackAllAfter at h
    cases h
    exact ⟨[], .nil _, (List.append_nil _).symm, nofun⟩
  | d :: ds, h => by
    unfold unpackAllAfter at h
    split at h
    · cases h
    · rename_i t₁ done₁ hfirst
      obtain ⟨front, hfront, rfl, hmem⟩ := exists_inTurn d hfirst
      obtain ⟨back, hback, rfl, hmem'⟩ := exists_inTurn_all ds h
      refine ⟨front ++ back, hfront.append hback, ?_, fun step hstep => ?_⟩
      · rw [List.map_append, List.append_assoc]
      · rcases List.mem_append.mp hstep with hstep | hstep
        · exact List.mem_append_left _ (hmem step hstep)
        · exact List.mem_append_right _ (hmem' step hstep)

end

end Dependency

end SolPlan
