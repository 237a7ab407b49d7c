import SolPlan.Proofs.CacheId

/-!
# Ids and paths are inverse to each other

The way from a base to a path goes upwards to where the two part, and then down. Put after the base
it leads back to the path: each step upwards takes away one step of the base, a `..` that was kept
at the root included, and what is left is what both have in common. Nothing is asked of the base.

An id writes the way as segments, and these are read as they were written if no name holds a
backslash. So an id tells the normalized path, and no more. It does not tell names apart that are no
text (`not_ofPath_inverse`).

Results:
* `normalize_join_relativeTo`: the relative path from a base, put after the base;
* `NoBackslash.isSegment_way`: how the way is written in an id;
* **`ofPath_inverse`**: an id leads back to its path, and two paths have one id exactly if they
  are the same when normalized.
-/

namespace SolPlan

namespace Path

variable {p q base root : Path}

/-- **The relative path leads back to the path**, put after the base. -/
theorem normalize_join_relativeTo (hp : p.isAbsolute = true) (hbase : base.isAbsolute = true) :
    (base.join (p.relativeTo base)).normalize = p.normalize := by
  unfold normalize
  rw [relativeTo_of_isAbsolute hp hbase, isAbsolute_join hbase, hp, steps_join_way]

/-! ## Ids -/

/-- No component of the path holds a backslash. -/
def NoBackslash (p : Path) : Prop := ∀ n, Component.name n ∈ p.components → '\\' ∉ n

theorem noBackslash_of_text (h : '\\' ∉ p.text) : p.NoBackslash := by
  intro n hn hmem
  have htexts : n ∈ p.components.filterMap Component.text? := List.mem_filterMap.mpr ⟨_, hn, rfl⟩
  rw [texts_components] at htexts
  exact h (Text.subset_of_mem_splitOn (List.mem_filter.mp htexts).1 hmem)

theorem mem_foldl_resolveStep {components : List Component} {kept : List Text} {s : Text}
    (h : s ∈ components.foldl resolveStep kept) :
    s ∈ kept ∨ s = upPiece ∨ Component.name s ∈ components := by
  induction components generalizing kept with
  | nil => exact .inl h
  | cons c components ih =>
    rcases ih h with h | h | h
    · cases c with
      | root => exact .inl h
      | here => exact .inl h
      | up =>
        cases kept with
        | nil => exact .inr (.inl (List.mem_singleton.mp h))
        | cons t kept => exact .inl (List.mem_cons_of_mem t h)
      | name n =>
        rcases List.mem_cons.mp h with rfl | h
        · exact .inr (.inr List.mem_cons_self)
        · exact .inl h
    · exact .inr (.inl h)
    · exact .inr (.inr (List.mem_cons_of_mem c h))

theorem NoBackslash.not_mem_steps (h : p.NoBackslash) : ∀ s ∈ p.steps, '\\' ∉ s := by
  intro s hs
  rcases mem_foldl_resolveStep (List.mem_reverse.mp hs) with hnil | rfl | hname
  · cases hnil
  · decide
  · exact h s hname

/-- The way to the path stays what it is in an id. -/
theorem NoBackslash.isSegment_way (h : p.NoBackslash) (root : Path) :
    ∀ s ∈ wayPieces p.steps root.steps, IsSegment s := by
  refine forall_mem_wayPieces root.steps isSegment_upPiece fun s hs => ?_
  obtain ⟨hslash, hvoid⟩ := p.grounded_steps.solid s hs
  exact ⟨hslash, h.not_mem_steps s hs, hvoid⟩

/-- Paths that are the same when normalized have one id. -/
theorem ofPath_congr (hp : p.isAbsolute = true) (hq : q.isAbsolute = true)
    (hroot : root.isAbsolute = true) (h : p.normalize = q.normalize) :
    SourceId.ofPath p root = SourceId.ofPath q root := by
  have hsteps : p.steps = q.steps := by rw [← steps_normalize p, h, steps_normalize]
  unfold SourceId.ofPath
  rw [relativeTo_of_isAbsolute hp hroot, relativeTo_of_isAbsolute hq hroot, hsteps]

end Path

namespace Project

/-- **Ids and paths are inverse to each other.** For every project, the id of an absolute path
whose components hold no backslash leads back to the path, normalized; so two such paths have one
id exactly if they are the same when normalized. And the way from any absolute base to an absolute
path, put after the base, leads back to the path. -/
theorem ofPath_inverse (project : Project) :
    (∀ p : Path, p.isAbsolute = true → p.NoBackslash →
      project.pathOf (SourceId.ofPath p project.rootPath) = p.normalize) ∧
    (∀ p q : Path, p.isAbsolute = true → q.isAbsolute = true → p.NoBackslash → q.NoBackslash →
      (SourceId.ofPath p project.rootPath = SourceId.ofPath q project.rootPath ↔
        p.normalize = q.normalize)) ∧
    ∀ p base : Path, p.isAbsolute = true → base.isAbsolute = true →
      (base.join (p.relativeTo base)).normalize = p.normalize := by
  have hinverse : ∀ p : Path, p.isAbsolute = true → p.NoBackslash →
      project.pathOf (SourceId.ofPath p project.rootPath) = p.normalize :=
    fun p hp h => Path.normalize_ofPath hp rfl (h.isSegment_way project.rootPath)
  refine ⟨hinverse, fun p q hp hq hpback hqback => ⟨fun heq => ?_, Path.ofPath_congr hp hq rfl⟩,
    fun p base => Path.normalize_join_relativeTo⟩
  rw [← hinverse p hp hpback, heq, hinverse q hq hqback]

/-- A path outside of the root, spelled through the root. -/
def throughRoot : Path := ⟨"/r/../lib/./A.sol".toList⟩

/-- The same path, spelled otherwise. -/
def roundabout : Path := ⟨"/lib//x/../A.sol".toList⟩

/-- Above all there is nothing, so the `..` is kept. -/
def aboveAll : Path := ⟨"/..".toList⟩

/-- Two spellings of a path outside of the root have one id, and a `..` that is kept comes back. -/
theorem ofPath_inverse_beside :
    (SourceId.ofPath throughRoot beside.rootPath).text = "../lib/A.sol".toList ∧
      beside.pathOf (SourceId.ofPath throughRoot beside.rootPath) = ⟨"/lib/A.sol".toList⟩ ∧
      SourceId.ofPath throughRoot beside.rootPath = SourceId.ofPath roundabout beside.rootPath ∧
      beside.pathOf (SourceId.ofPath aboveAll beside.rootPath) = aboveAll ∧
      (aboveAll.join (throughRoot.relativeTo aboveAll)).normalize = ⟨"/lib/A.sol".toList⟩ := by
  obtain ⟨hinverse, hsame, hway⟩ := ofPath_inverse beside
  have hthrough : throughRoot.NoBackslash := Path.noBackslash_of_text (by decide)
  have hround : roundabout.NoBackslash := Path.noBackslash_of_text (by decide)
  have habove : aboveAll.NoBackslash := Path.noBackslash_of_text (by decide)
  have hpath : throughRoot.normalize = ⟨"/lib/A.sol".toList⟩ := by cbv
  have hone : throughRoot.normalize = roundabout.normalize := by cbv
  refine ⟨by cbv, ?_, ?_, ?_, ?_⟩
  · rw [hinverse throughRoot (by decide) hthrough, hpath]
  · exact (hsame throughRoot roundabout (by decide) (by decide) hthrough hround).mpr hone
  · rw [hinverse aboveAll (by decide) habove]
    cbv
  · rw [hway throughRoot aboveAll (by decide) (by decide), hpath]

/-- A file in the root directory of that project, whose name begins with a byte. -/
def rawFile (b : UInt8) : Path := ⟨"/r/".toList ++ Text.ofBytes [b] ++ ".sol".toList⟩

/-- **Two files whose names are no text** have one id, and it does not lead back. -/
theorem not_ofPath_inverse :
    (rawFile 0xFF).isAbsolute = true ∧ (rawFile 0xFF).NoBackslash ∧
      (rawFile 0xFE).isAbsolute = true ∧ (rawFile 0xFE).NoBackslash ∧
      SourceId.ofRaw (rawFile 0xFF) beside.rootPath =
        SourceId.ofRaw (rawFile 0xFE) beside.rootPath ∧
      (rawFile 0xFF).normalize ≠ (rawFile 0xFE).normalize ∧
      beside.rawPathOf (SourceId.ofRaw (rawFile 0xFF) beside.rootPath) ≠
        (rawFile 0xFF).normalize := by
  have hfirst : (rawFile 0xFF).normalize = rawFile 0xFF := by cbv
  have hsecond : (rawFile 0xFE).normalize = rawFile 0xFE := by cbv
  have hback : beside.rawPathOf (SourceId.ofRaw (rawFile 0xFF) beside.rootPath) =
      ⟨"/r/".toList ++ Text.ofBytes [0xEF, 0xBF, 0xBD] ++ ".sol".toList⟩ := by cbv
  rw [hfirst, hsecond, hback]
  exact ⟨rfl, Path.noBackslash_of_text (by decide), rfl, Path.noBackslash_of_text (by decide),
    by cbv, by decide, by decide⟩

end Project

end SolPlan
