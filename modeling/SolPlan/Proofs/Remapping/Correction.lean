import SolPlan.Proofs.CacheLocation
import SolPlan.Proofs.Import.Resolve
import SolPlan.Proofs.ImportGraph.Walk
import SolPlan.Proofs.Path.Steps
import SolPlan.Remapping.Cache

/-!
# Corrections

A correction replaces a value that ends at the version of a package by one that goes on into the
package's own source folder (`Mends`). Both point to the same package folder (`SameFolder`), so a
table whose folders are there is still usable after it was corrected.

If the source folder of the package is a relative path, the new value does not end at the version
any more, slashes aside, so it is never corrected again (`Mends.final`). So a walk corrects each key
at most once, and what it replaces is the value that the table had at the start.

Results:
* `correction_of_resolve`: what a correction replaces;
* `correcting_induction`: what holds of the table of a walk and its corrections;
* **`foldersPresent_walk`**: all folders of a table are still there after a walk has corrected it;
* **`correctedOnce_walk`**: a walk corrects each key at most once.
-/

namespace SolPlan

/-- The values point to the same package folder, or both to none. -/
def SameFolder (u v : Text) : Prop :=
  (CacheLocation.ofText? u).map CacheLocation.packagePath =
    (CacheLocation.ofText? v).map CacheLocation.packagePath

/-- The old value ends at the version of a package, slashes aside; the new one goes on into the
package's own source folder. -/
def Mends (r : Registry) (old new : Text) : Prop :=
  ∃ (place : CacheLocation) (d : Dependency), place.IsPlace ∧
    Text.dropEndWhile (· == '/') old = place.packagePath ∧ r.find? place.package = some d ∧
    d.package.contractsName ≠ [] ∧ new = Import.repairedPrefix place d.package.contractsName

/-- The new value is the old one without slashes at its end, and then the source folder of the
package that the old one points to. -/
def GoesOn (r : Registry) (old new : Text) : Prop :=
  ∃ place d, CacheLocation.ofText? old = some place ∧ r.find? place.package = some d ∧
    new = Text.dropEndWhile (· == '/') old ++ '/' :: d.package.contractsName

/-- The source folders of all packages are seen from where the packages are installed. -/
def Registry.FoldersRelative (r : Registry) : Prop :=
  ∀ id d, r.find? id = some d → d.package.contracts.isAbsolute = false

/-! ## What a corrected value points to -/

namespace Mends

variable {r : Registry} {old new newer : Text}

theorem sameFolder (h : Mends r old new) : SameFolder new old := by
  obtain ⟨place, d, hplace, hold, -, -, rfl⟩ := h
  obtain ⟨rest, hrest, -⟩ := hplace.ofText?_of_dropEndWhile hold
  obtain ⟨rest', hrest'⟩ := hplace.ofText?_joinSlash hold d.package.contractsName
  unfold SameFolder Import.repairedPrefix
  rw [hrest, hrest']
  rfl

/-- With a relative source folder, the new value has the pieces of that folder at its end. -/
theorem exists_pieces (hrelative : r.FoldersRelative) (h : Mends r old new) :
    ∃ (place : CacheLocation) (d : Dependency) (pieces : List Text), place.IsPlace ∧
      Text.dropEndWhile (· == '/') old = place.packagePath ∧
      r.find? place.package = some d ∧ pieces ≠ [] ∧
      (∀ s ∈ pieces, '/' ∉ s ∧ Path.isVoid s = false) ∧
      d.package.contractsName = Text.join '/' pieces ∧
      new = place.packagePath ++ '/' :: Text.join '/' pieces := by
  obtain ⟨place, d, hplace, hold, hfind, hne, rfl⟩ := h
  obtain ⟨pieces, hpieces, hname⟩ := Path.exists_slashed (hrelative _ d hfind)
  have hname : d.package.contractsName = Text.join '/' pieces := hname
  rw [hname] at hne ⊢
  refine ⟨place, d, pieces, hplace, hold, hfind, ?_, hpieces, hname, ?_⟩
  · rintro rfl
    exact hne rfl
  · refine joinSlash_of_ne ?_ hplace.packagePath_ne_nil hne (Path.head?_join hpieces)
    rw [← hold]
    exact List.rdropWhile_idempotent _ _

theorem goesOn (hrelative : r.FoldersRelative) (h : Mends r old new) : GoesOn r old new := by
  obtain ⟨place, d, pieces, hplace, hold, hfind, -, -, hname, hnew⟩ := h.exists_pieces hrelative
  obtain ⟨rest, hrest, -⟩ := hplace.ofText?_of_dropEndWhile hold
  exact ⟨_, d, hrest, hfind, by rw [hnew, hold, hname]⟩

/-- **A corrected value is not corrected again.** -/
theorem final (hrelative : r.FoldersRelative) (h : Mends r old new) : ¬ Mends r new newer := by
  rintro ⟨place', -, hplace', hnew', -⟩
  obtain ⟨place, d, pieces, hplace, -, -, hne, hpieces, -, hnew⟩ := h.exists_pieces hrelative
  -- Read from its start the value goes on after the version, and read as one that ends there not.
  have hthere := hplace.ofText?_packagePath_append (Text.join '/' pieces)
  rw [← hnew, Text.join, List.splitOn_intercalate _ (fun s hs => (hpieces s hs).1) hne] at hthere
  obtain ⟨rest, hrest, hempty⟩ := hplace'.ofText?_of_dropEndWhile hnew'
  rw [hthere] at hrest
  obtain rfl : pieces = rest := congrArg CacheLocation.rest (Option.some.inj hrest)
  obtain ⟨s, hs⟩ := List.exists_mem_of_ne_nil _ hne
  have hvoid := (hpieces s hs).2
  rw [hempty s hs] at hvoid
  cases hvoid

end Mends

/-! ## What a correction replaces -/

namespace Import

variable {t : FileTree} {p : Project} {r : Registry}

theorem repair?_correction {i : Import} {path : Path} {c : Correction}
    (h : i.repair? t p r = some (path, some c)) :
    ∃ old, i.remapping = some (c.key, old) ∧ Mends r old c.value := by
  obtain ⟨place, d, hplace, hfind, hfolder, -, hc⟩ := repair?_ok h
  obtain ⟨old, hremapping, hends, hvalue⟩ := correction?_ok hc
  exact ⟨old, hremapping, place, d, CacheLocation.ofText?_spec hplace, hends, hfind, hfolder, hvalue⟩

/-- A correction replaces an entry of the table by one that goes on into its package. -/
theorem correction_of_resolve {table : RemappingTable} {path : Path} {raw : Text}
    {res : Resolution} {c : Correction} (h : Import.resolve t p r table path raw = .ok res)
    (hc : res.correction = some c) :
    ∃ old, (c.key, old) ∈ table.pairs ∧ Mends r old c.value := by
  obtain ⟨i, _, hi, hrepair, -⟩ := exists_repair h hc
  obtain ⟨old, hold, hmends⟩ := repair?_correction hrepair
  exact ⟨old, mem_of_remap hi hold, hmends⟩

end Import

/-! ## The table of a walk -/

namespace Walk

variable {t : FileTree} {p : Project} {r : Registry} {P : RemappingTable → List Correction → Prop}

theorem correcting_resolveAll {id : SourceId} {path : Path} {package : Option PackageId}
    (hstep : ∀ table cs c old, P table cs → (c.key, old) ∈ table.pairs → Mends r old c.value →
      P (table.correct c) (cs ++ [c]))
    {lines : List Text} {w : Walk} (done : List Import)
    (h : P w.graph.remapping w.graph.corrections) :
    P (resolveAll t p r id path package lines w done).1.graph.remapping
      (resolveAll t p r id path package lines w done).1.graph.corrections := by
  induction lines generalizing w done with
  | nil => exact h
  | cons raw lines ih =>
    unfold resolveAll
    split
    · exact ih (w := w.record id _) done h
    · rename_i res hres
      refine ih _ ?_
      cases hcorrection : res.correction with
      | none => exact h
      | some c =>
        obtain ⟨old, hold, hmends⟩ := Import.correction_of_resolve hres hcorrection
        unfold tableFor at hold
        simp only [correctMaybe, Walk.correct]
        -- a package's table is not the one that is kept
        split
        · exact h
        · rename_i hcontext
          rw [hcontext] at hold
          exact hstep _ _ c old h hold hmends

theorem table_prepared (w : Walk) (id : SourceId) :
    (prepared p r w id).graph.remapping = w.graph.remapping ∧
      (prepared p r w id).graph.corrections = w.graph.corrections := by
  unfold prepared
  split
  · unfold ensureTable
    split
    · exact ⟨rfl, rfl⟩
    · split
      · exact ⟨rfl, rfl⟩
      · split <;> exact ⟨rfl, rfl⟩
  · exact ⟨rfl, rfl⟩

theorem correcting_enter
    (hstep : ∀ table cs c old, P table cs → (c.key, old) ∈ table.pairs → Mends r old c.value →
      P (table.correct c) (cs ++ [c]))
    {w : Walk} (id : SourceId) (importer : Option SourceId)
    (h : P w.graph.remapping w.graph.corrections) :
    P (w.enter t p r id importer).2.graph.remapping
      (w.enter t p r id importer).2.graph.corrections := by
  unfold enter
  split
  · cases hlines : ImportLines.ofFile t (p.pathOf id) with
    | error e =>
      rw [visit_error hlines]
      exact h
    | ok lines =>
      rw [visit_ok hlines]
      obtain ⟨hremapping, hcorrections⟩ := table_prepared (p := p) (r := r) w id
      exact correcting_resolveAll hstep [] (by rw [hremapping, hcorrections]; exact h)
  · exact h

end Walk

open Walk in
/-- What each correction keeps of a table and the corrections to it, holds at the end of a walk if
it holds at its start. -/
theorem ImportGraph.correcting_induction {t : FileTree} {p : Project} {r : Registry}
    {P : RemappingTable → List Correction → Prop}
    (hstep : ∀ table cs c old, P table cs → (c.key, old) ∈ table.pairs → Mends r old c.value →
      P (table.correct c) (cs ++ [c]))
    {table : RemappingTable} (entries : List SourceId) (h : P table []) :
    P (walk t p r table entries).remapping (walk t p r table entries).corrections :=
  foldl_walkFrom_induction (t := t) (p := p) (r := r)
    (P := fun w => P w.graph.remapping w.graph.corrections) (fun _ h => h)
    (fun _ id importer _ h => correcting_enter hstep id importer h) entries _ h

/-! ## Folders that are there -/

namespace RemappingCache

variable {t : FileTree} {p : Project} {r : Registry} {table : RemappingTable}

theorem foldersPresent_iff :
    foldersPresent p t table = true ↔ t.isDirectory p.cacheFolder = true ∧
      ∀ e ∈ table.pairs, ∀ folder,
        (CacheLocation.ofText? e.2).map CacheLocation.packagePath = some folder →
          t.isDirectory (p.rootPath.join ⟨folder⟩) = true := by
  unfold foldersPresent
  rw [Bool.and_eq_true, List.all_eq_true]
  refine and_congr_right fun _ => ⟨fun h e he folder hfolder => ?_, fun h place hplace => ?_⟩
  · obtain ⟨place, hplace, rfl⟩ := Option.map_eq_some_iff.mp hfolder
    exact h place (List.mem_filterMap.mpr ⟨e, he, hplace⟩)
  · obtain ⟨e, he, hplace⟩ := List.mem_filterMap.mp hplace
    exact h e he place.packagePath (by rw [hplace]; rfl)

/-- A value in the folder of the one it replaces needs no other folder. -/
theorem foldersPresent_correct {c : Correction} {old : Text}
    (h : foldersPresent p t table = true) (hold : (c.key, old) ∈ table.pairs)
    (hsame : SameFolder c.value old) : foldersPresent p t (table.correct c) = true := by
  rw [foldersPresent_iff] at h ⊢
  refine ⟨h.1, fun e he folder hfolder => ?_⟩
  rcases Table.mem_of_mem_insert he with rfl | he
  · exact h.2 (c.key, old) hold folder (hsame.symm.trans hfolder)
  · exact h.2 e he folder hfolder

/-- **A walk needs no folders but those that its table has needed before.** -/
theorem foldersPresent_walk (entries : List SourceId) (h : foldersPresent p t table = true) :
    foldersPresent p t (ImportGraph.walk t p r table entries).remapping = true :=
  ImportGraph.correcting_induction (r := r) (P := fun table _ => foldersPresent p t table = true)
    (fun _ _ _ _ h hold hmends => foldersPresent_correct h hold hmends.sameFolder) entries h

end RemappingCache

/-! ## Each key once -/

/-- A table was corrected at distinct keys of it, and not changed otherwise. -/
structure CorrectedOnce (first now : RemappingTable) (corrections : List Correction) : Prop where
  keys : now.keys = first.keys
  nodup : (corrections.map Correction.key).Nodup
  mem_keys : ∀ c ∈ corrections, c.key ∈ first.keys
  written : ∀ c ∈ corrections, now.get? c.key = some c.value
  kept : ∀ k, k ∉ corrections.map Correction.key → now.get? k = first.get? k

namespace CorrectedOnce

variable {first now : RemappingTable} {corrections : List Correction} {c : Correction}

theorem refl (table : RemappingTable) : CorrectedOnce table table [] :=
  ⟨rfl, List.nodup_nil, fun _ h => absurd h List.not_mem_nil, fun _ h => absurd h List.not_mem_nil,
    fun _ _ => rfl⟩

/-- A correction of one more key. -/
theorem correct (h : CorrectedOnce first now corrections)
    (hnew : c.key ∉ corrections.map Correction.key) (hkey : c.key ∈ first.keys) :
    CorrectedOnce first (now.correct c) (corrections ++ [c]) := by
  have hget : ∀ k, (now.correct c).get? k = if k = c.key then some c.value else now.get? k :=
    Table.get?_insert now c.key c.value
  refine ⟨?_, ?_, fun c' hc' => ?_, fun c' hc' => ?_, fun k hk => ?_⟩
  · rw [← h.keys] at hkey ⊢
    exact (Table.keys_insert now c.key c.value).trans (if_pos hkey)
  · rw [List.map_append, List.map_singleton]
    exact List.nodup_append.mpr ⟨h.nodup, List.pairwise_singleton _ _, fun k hk k' hk' he =>
      hnew (List.mem_singleton.mp hk' ▸ he ▸ hk)⟩
  · rcases List.mem_append.mp hc' with hc' | hc'
    · exact h.mem_keys c' hc'
    · exact List.mem_singleton.mp hc' ▸ hkey
  · rcases List.mem_append.mp hc' with hc' | hc'
    · rw [hget, if_neg, h.written c' hc']
      intro he
      exact hnew (he ▸ List.mem_map_of_mem hc')
    · rw [List.mem_singleton.mp hc', hget, if_pos rfl]
  · rw [List.map_append, List.map_singleton, List.mem_append, not_or, List.mem_singleton] at hk
    rw [hget, if_neg hk.2, h.kept k hk.1]

end CorrectedOnce

/-- **A walk corrects each key at most once**, and goes on from the value that its table had at the
start. -/
theorem ImportGraph.correctedOnce_walk {t : FileTree} {p : Project} {r : Registry}
    (hrelative : r.FoldersRelative) (table : RemappingTable) (entries : List SourceId) :
    CorrectedOnce table (walk t p r table entries).remapping
        (walk t p r table entries).corrections ∧
      ∀ c ∈ (walk t p r table entries).corrections, ∃ old,
        table.get? c.key = some old ∧ Mends r old c.value := by
  refine correcting_induction (r := r) (P := fun now corrections =>
    CorrectedOnce table now corrections ∧ ∀ c ∈ corrections, ∃ old,
      table.get? c.key = some old ∧ Mends r old c.value) ?_ entries
    ⟨CorrectedOnce.refl table, fun _ h => absurd h List.not_mem_nil⟩
  rintro now corrections c old ⟨honce, hvalues⟩ hold hmends
  have hold : now.get? c.key = some old := Table.get?_of_mem hold
  have hnew : c.key ∉ corrections.map Correction.key := fun hmem => by
    obtain ⟨c', hc', hkey⟩ := List.mem_map.mp hmem
    obtain ⟨old', -, hmends'⟩ := hvalues c' hc'
    -- its value would be a corrected one
    rw [← hkey, honce.written c' hc'] at hold
    cases hold
    exact hmends'.final hrelative hmends
  have hfirst : table.get? c.key = some old := (honce.kept c.key hnew).symm.trans hold
  refine ⟨honce.correct hnew (Table.mem_keys_of_get? hfirst), fun c' hc' => ?_⟩
  rcases List.mem_append.mp hc' with hc' | hc'
  · exact hvalues c' hc'
  · rw [List.mem_singleton.mp hc']
    exact ⟨old, hfirst, hmends⟩

end SolPlan
