import Mathlib
import SolPlan.Proofs.Compiler.LazySelection
import SolPlan.Proofs.Compiler.Pins

/-!
# The version of a file as a rule

What a selector answers for the files of a map settles the versions of all of them. The rule
(`IsVersionOf`) does not speak of an order in which imports are looked at, nor of versions that are
lowered: a pin counts first, then the least pinned import in the order of ids, then the least of the
best versions. No file has two versions by the rule (`IsVersionOf.unique`), and the loop over the
imports finds one (`isVersionOf_resolve`), wherever the pins stand among them.

Results:
* `answers_of_selectAll`: the best versions are the answers of the selector to one request for each
  file, in the order of ids;
* **`resolved_iff_of_compute`**: the versions of a computed map are those of the rule, and its files
  are those that were asked for and what they import.
-/

namespace SolPlan

/-! ## One request for each file -/

/-- The request for a file, where installing answers as the toolchain does. -/
def requestFor (tools : Toolchain) (pragmas : PragmaTable) (file : SourceId) : Request :=
  ⟨tools.install, pragmas, file⟩

/-- Serve the requests for some files, up to the first that is answered with an error. -/
def Selector.serveFiles (tools : Toolchain) (pragmas : PragmaTable) (s : Selector) :
    List SourceId → List Service
  | [] => []
  | file :: files =>
    match (s.serve tools (requestFor tools pragmas file)).answer with
    | .ok _ => s.serve tools (requestFor tools pragmas file) ::
        (s.serve tools (requestFor tools pragmas file)).after.serveFiles tools pragmas files
    | .error _ => [s.serve tools (requestFor tools pragmas file)]

/-- The file of a request that was served, and the answer. -/
def Service.answered (x : Service) : SourceId × Except Error Version := (x.request.file, x.answer)

/-- The version of a file in a map that holds it. -/
def bestOf (best : Std.ExtTreeMap SourceId Version) (file : SourceId) : Version :=
  best[file]?.getD (.release 0 0 0)

theorem getElem?_eq_bestOf {best : Std.ExtTreeMap SourceId Version} {file : SourceId}
    (h : file ∈ best) : best[file]? = some (bestOf best file) := by
  obtain ⟨v, hv⟩ := Option.isSome_iff_exists.mp (Std.ExtTreeMap.mem_iff_isSome_getElem?.mp h)
  rw [bestOf, hv, Option.getD_some]

theorem serve_requestFor (tools : Toolchain) (pragmas : PragmaTable) (s : Selector)
    (file : SourceId) :
    s.serve tools (requestFor tools pragmas file) =
      ⟨requestFor tools pragmas file, s, (s.select tools pragmas file).1,
        (s.select tools pragmas file).2⟩ := rfl

theorem nodup_of_ordered {l : List SourceId} (h : l.Pairwise fun a b => compare a b = .lt) :
    l.Nodup :=
  h.imp fun hlt heq => by
    subst heq
    simp at hlt

/-- The best versions are the answers, one for each file in turn. -/
theorem answers_of_selectAll {tools : Toolchain} {pragmas : PragmaTable} {files : List SourceId}
    {s s' : Selector} {best : Std.ExtTreeMap SourceId Version} (hnodup : files.Nodup)
    (h : s.selectAll tools pragmas files = (s', .ok best)) :
    (s.serveFiles tools pragmas files).map Service.answered =
      files.map fun file => (file, .ok (bestOf best file)) := by
  induction files generalizing s best with
  | nil => rfl
  | cons file files ih =>
    obtain ⟨hfile, hnodup⟩ := List.nodup_cons.mp hnodup
    unfold Selector.selectAll at h
    split at h
    · cases h
    · rename_i s₁ v hselect
      split at h
      · cases h
      · rename_i s₂ more hmore
        cases h
        have hrest : ∀ other ∈ files, bestOf (more.insert file v) other = bestOf more other :=
          fun other hother => by
            have hne : other ≠ file := fun e => hfile (e ▸ hother)
            rw [bestOf, getElem?_insert_ite, if_neg hne, bestOf]
        have hfirst : bestOf (more.insert file v) file = v := by
          rw [bestOf, getElem?_insert_ite, if_pos rfl, Option.getD_some]
        rw [Selector.serveFiles, serve_requestFor, hselect]
        dsimp only
        rw [List.map_cons, List.map_cons, ih hnodup hmore, hfirst]
        exact congrArg _ (List.map_congr_left fun other hother => by rw [hrest other hother])

namespace VersionMap

variable {g : ImportGraph} {tools : Toolchain} {pragmas : PragmaTable} {files : List SourceId}
  {s s' : Selector} {m : VersionMap} {file : SourceId}

/-! ## The rule -/

/-- The least pinned import of a file, in the order of ids. -/
structure IsFirstPin (g : ImportGraph) (pragmas : PragmaTable) (file p : SourceId) : Prop where
  imported : p ∈ g.transitiveImports file
  pinned : (pragmas.pin? p).isSome = true
  least : ∀ q ∈ g.transitiveImports file, (pragmas.pin? q).isSome = true →
    (compare p q).isLE = true

/-- The version of a file, given the best versions of all: its pin, or else the best version of the
least pinned import, or else the least of the best versions of the file and what it imports. -/
inductive IsVersionOf (g : ImportGraph) (pragmas : PragmaTable) (best : SourceId → Version)
    (file : SourceId) : Version → Prop where
  | pinned {pin : Version} (hpin : pragmas.pin? file = some pin) (hbest : best file = pin) :
    IsVersionOf g pragmas best file (best file)
  | overridden {p : SourceId} (hfree : pragmas.pin? file = none)
    (hfirst : IsFirstPin g pragmas file p) : IsVersionOf g pragmas best file (best p)
  | least {v : Version} (hfree : pragmas.pin? file = none)
    (hnone : ∀ p ∈ g.transitiveImports file, pragmas.pin? p = none)
    (hfrom : ∃ x, Brings g file x ∧ best x = v)
    (hle : ∀ x, Brings g file x → (compare v (best x)).isLE = true) :
    IsVersionOf g pragmas best file v

theorem IsFirstPin.unique {p q : SourceId} (hp : IsFirstPin g pragmas file p)
    (hq : IsFirstPin g pragmas file q) : p = q :=
  Std.LawfulEqCmp.eq_of_compare (Std.OrientedCmp.isLE_antisymm
    (hp.least q hq.imported hq.pinned) (hq.least p hp.imported hp.pinned))

theorem IsFirstPin.pin?_ne_none {p : SourceId} (h : IsFirstPin g pragmas file p) :
    pragmas.pin? p ≠ none :=
  fun hnone => by
    have hpinned := h.pinned
    rw [hnone] at hpinned
    cases hpinned

/-- By the rule a file has one version. -/
theorem IsVersionOf.unique {best : SourceId → Version} {u v : Version}
    (hu : IsVersionOf g pragmas best file u) (hv : IsVersionOf g pragmas best file v) : u = v := by
  cases hu with
  | pinned hpin hbest =>
    cases hv with
    | pinned => rfl
    | overridden hfree => exact absurd (hpin.symm.trans hfree) (Option.some_ne_none _)
    | least hfree => exact absurd (hpin.symm.trans hfree) (Option.some_ne_none _)
  | overridden hfree hfirst =>
    cases hv with
    | pinned hpin => exact absurd (hpin.symm.trans hfree) (Option.some_ne_none _)
    | overridden _ hfirst' => rw [hfirst.unique hfirst']
    | least _ hnone => exact absurd (hnone _ hfirst.imported) hfirst.pin?_ne_none
  | least hfree hnone hfrom hle =>
    cases hv with
    | pinned hpin => exact absurd (hpin.symm.trans hfree) (Option.some_ne_none _)
    | overridden _ hfirst => exact absurd (hnone _ hfirst.imported) hfirst.pin?_ne_none
    | least _ _ hfrom' hle' =>
      obtain ⟨x, hx, rfl⟩ := hfrom
      obtain ⟨y, hy, rfl⟩ := hfrom'
      exact Std.LawfulEqCmp.eq_of_compare (Std.OrientedCmp.isLE_antisymm (hle y hy) (hle' x hx))

/-! ## The loop follows the rule -/

/-- In a set, what is found first is the least of what could be found. -/
theorem isLE_of_find?_toList {set : SourceSet} {f : SourceId → Bool} {p : SourceId}
    (h : set.toList.find? f = some p) {q : SourceId} (hq : q ∈ set) (hf : f q = true) :
    (compare p q).isLE = true := by
  obtain ⟨-, before, after, heq, hbefore⟩ := List.find?_eq_some_iff_append.mp h
  have hordered : set.toList.Pairwise fun a b => compare a b = .lt := Std.ExtTreeSet.ordered_toList
  have hmem : q ∈ set.toList := Std.ExtTreeSet.mem_toList.mpr hq
  rw [heq] at hordered hmem
  rcases List.mem_append.mp hmem with hmem | hmem
  · have hfalse := hbefore q hmem
    rw [hf] at hfalse
    cases hfalse
  · rcases List.mem_cons.mp hmem with rfl | hmem
    · exact Std.ReflCmp.isLE_rfl
    · have hlt := (List.pairwise_cons.mp (List.pairwise_append.mp hordered).2.1).1 q hmem
      rw [hlt]
      rfl

theorem isFirstPin_of_find? {p : SourceId}
    (h : (g.transitiveImports file).toList.find? pragmas.isExactPin = some p) :
    IsFirstPin g pragmas file p where
  imported := Std.ExtTreeSet.mem_toList.mp (List.mem_of_find?_eq_some h)
  pinned := PragmaTable.isExactPin_eq pragmas p ▸ List.find?_some h
  least q hq hpinned := isLE_of_find?_toList h hq (by rw [PragmaTable.isExactPin_eq, hpinned])

/-- **The loop over the imports follows the rule,** if the best version of a pinned file is its
pin. -/
theorem isVersionOf_resolve {best : Std.ExtTreeMap SourceId Version}
    (hbest : ∀ x, Brings g file x → x ∈ best)
    (hpin : ∀ pin, pragmas.pin? file = some pin → bestOf best file = pin) :
    IsVersionOf g pragmas (bestOf best) file
      (resolve g pragmas best file (bestOf best file)) := by
  have hvalue : ∀ x, Brings g file x → best[x]? = some (bestOf best x) := fun x hx =>
    getElem?_eq_bestOf (hbest x hx)
  unfold resolve
  rw [PragmaTable.isExactPin_eq]
  cases hp : pragmas.pin? file with
  | some pin =>
    rw [Option.isSome_some, if_pos rfl]
    exact .pinned hp (hpin pin hp)
  | none =>
    rw [Option.isSome_none, if_neg Bool.false_ne_true]
    cases hq : (g.transitiveImports file).toList.find? pragmas.isExactPin with
    | some q =>
      have hfirst := isFirstPin_of_find? hq
      rw [lower_of_find? hq (hvalue q (Or.inr hfirst.imported))]
      exact .overridden hp hfirst
    | none =>
      have hnone : ∀ p ∈ g.transitiveImports file, pragmas.pin? p = none := fun p hmem => by
        have hfalse := List.find?_eq_none.mp hq p (Std.ExtTreeSet.mem_toList.mpr hmem)
        rwa [PragmaTable.isExactPin_eq, Option.not_isSome_iff_eq_none] at hfalse
      obtain ⟨hfrom, hle, hall⟩ := lower_of_find?_none best (v := bestOf best file) hq
      refine .least hp hnone ?_ fun x hx => ?_
      · rcases hfrom with hfrom | ⟨x, hx, hb⟩
        · exact ⟨file, Or.inl rfl, hfrom.symm⟩
        · have hbrings : Brings g file x := Or.inr (Std.ExtTreeSet.mem_toList.mp hx)
          exact ⟨x, hbrings, Option.some.inj ((hvalue x hbrings).symm.trans hb)⟩
      · rcases hx with rfl | hx
        · exact hle
        · exact hall x (Std.ExtTreeSet.mem_toList.mpr hx) _ (hvalue x (Or.inr hx))

/-- **The versions of a computed map are those of the rule.** For the best versions that the
selector, asked in the order of ids, has answered for what the files bring: a file has a version
exactly if one of the files brings it, namely the one by the rule, and these are all the files that
some group holds. -/
theorem resolved_iff_of_compute (hs : s.Serving tools)
    (h : compute tools g pragmas files s = (s', .ok m)) :
    ∃ best : SourceId → Version,
      (s.serveFiles tools pragmas (closure g files).toList).map Service.answered =
        (closure g files).toList.map (fun file => (file, .ok (best file))) ∧
      (∀ file v, m.resolved[file]? = some v ↔
        (∃ entry ∈ files, Brings g entry file) ∧ IsVersionOf g pragmas best file v) ∧
      (∀ file, file ∈ m.resolved ↔ ∃ entry ∈ files, Brings g entry file) ∧
      ∀ file, (∃ v, file ∈ m.group v) ↔ ∃ entry ∈ files, Brings g entry file := by
  obtain ⟨best, hselect, hmem, hcomputed⟩ := computed_of_compute h
  have hnodup : (closure g files).toList.Nodup := nodup_of_ordered Std.ExtTreeSet.ordered_toList
  have hrule : ∀ file, file ∈ closure g files → IsVersionOf g pragmas (bestOf best) file
      (resolve g pragmas best file (bestOf best file)) := fun file hfile =>
    isVersionOf_resolve (closed_of_mem_iff hmem file · ((hmem file).mpr hfile)) fun pin hpin =>
      best_of_pin hs.stripped hselect (getElem?_eq_bestOf ((hmem file).mpr hfile)) hpin
  refine ⟨bestOf best, answers_of_selectAll hnodup hselect, fun file v => ?_, fun file => ?_,
    fun file => ?_⟩
  · rw [← mem_closure, hcomputed.resolved]
    constructor
    · intro hv
      obtain ⟨own, hown, rfl⟩ := Option.map_eq_some_iff.mp hv
      have hfile : file ∈ closure g files :=
        (hmem file).mp (Std.ExtTreeMap.mem_iff_isSome_getElem?.mpr (hown ▸ rfl))
      have hvalue := getElem?_eq_bestOf ((hmem file).mpr hfile)
      obtain rfl := Option.some.inj (hown.symm.trans hvalue)
      exact ⟨hfile, hrule file hfile⟩
    · rintro ⟨hfile, hv⟩
      rw [getElem?_eq_bestOf ((hmem file).mpr hfile), Option.map_some,
        (hrule file hfile).unique hv]
  · rw [mem_resolved_iff h, mem_closure]
  · rw [mem_resolved_compute h, mem_resolved_iff h, mem_closure]

/-- In `pinInCycle` the pin of the fourth source decides for the first by the rule, although the
second has a lower best version and stands before it. -/
theorem isVersionOf_pinInCycle :
    ∃ s s' m, Selector.start pinTools ⟨[], 0⟩ = .ok s ∧
      compute pinTools pinInCycle pinInCyclePragmas [.ofText ['A']] s = (s', .ok m) ∧
      ∃ best : SourceId → Version,
        (s.serveFiles pinTools pinInCyclePragmas
            (closure pinInCycle [.ofText ['A']]).toList).map Service.answered =
          (closure pinInCycle [.ofText ['A']]).toList.map (fun file => (file, .ok (best file))) ∧
        m.resolved[SourceId.ofText ['A']]? = some (.release 0 8 24) ∧
        IsVersionOf pinInCycle pinInCyclePragmas best (.ofText ['A']) (.release 0 8 24) := by
  obtain ⟨s, hs⟩ : ∃ s, Selector.start pinTools ⟨[], 0⟩ = .ok s := ⟨_, rfl⟩
  have hok : ((Selector.start pinTools ⟨[], 0⟩).toOption.bind fun s =>
      (compute pinTools pinInCycle pinInCyclePragmas [.ofText ['A']] s).2.toOption.bind
        fun m => m.resolved[SourceId.ofText ['A']]?) = some (.release 0 8 24) := by cbv
  rw [hs, Except.toOption, Option.bind_some] at hok
  cases hm : (compute pinTools pinInCycle pinInCyclePragmas [.ofText ['A']] s).2 with
  | error e =>
    rw [hm] at hok
    cases hok
  | ok m =>
    rw [hm] at hok
    have hv : m.resolved[SourceId.ofText ['A']]? = some (.release 0 8 24) := hok
    have hmap : compute pinTools pinInCycle pinInCyclePragmas [.ofText ['A']] s = (_, .ok m) :=
      Prod.ext rfl hm
    obtain ⟨best, hanswers, hrule, -⟩ := resolved_iff_of_compute (.start hs) hmap
    exact ⟨s, _, m, hs, hmap, best, hanswers, hv, ((hrule _ _).mp hv).2⟩

end VersionMap

end SolPlan
