import Mathlib
import SolPlan.Proofs.Compiler.Selection

/-!
# Many requests to one selector

A selector is asked for the versions of many files, each with its own table of constraints. What the
toolchain lists stays the same, but an installation may fail at one time and succeed at another, so
each request brings along what installing would answer (`Request`). A request comes to one of four
things (`Outcome`): something installed will do, or else a version is installed, or cannot be
installed, or there is none.

Results:
* `outcome_serve`: what one request comes to, and `Outcome.regular`: what holds of it;
* `Books.outcome`: what the selector keeps true over one request;
* **`account_serveAll`**: what any requests have made of the installed versions and of the calls to
  the toolchain (`Account`).
-/

namespace SolPlan

/-- The constraint of the file. -/
def Request.constraint (q : Request) : Option Constraint := q.pragmas.constraint? q.file

/-- Nothing that is installed will do for the file. -/
def Selector.Lacks (s : Selector) (q : Request) : Prop :=
  ∀ v ∈ s.installed, ¬ Accepts q.constraint v

namespace Service

/-- The versions that the toolchain was asked to install. -/
def installCalls (x : Service) : List Version :=
  x.after.log.installs.drop x.before.log.installs.length

/-- The toolchain was asked to install the version, and did. -/
def Installs (x : Service) (v : Version) : Prop :=
  v ∈ x.installCalls ∧ x.request.install v = .ok ()

/-- The toolchain was asked what can be installed. -/
def Probes (x : Service) : Prop := x.before.log.probes < x.after.log.probes

theorem installCalls_of_eq {x : Service} {calls : List Version}
    (h : x.after.log.installs = x.before.log.installs ++ calls) : x.installCalls = calls := by
  rw [installCalls, h, List.drop_left]

/-- What holds of every request that was served. -/
structure Regular (x : Service) : Prop where
  /-- What can be installed is asked for only if nothing installed will do. -/
  lacks_of_probes : x.Probes → x.before.Lacks x.request
  installs_eq : x.after.log.installs = x.before.log.installs ++ x.installCalls
  not_mem_of_mem_installCalls : ∀ v ∈ x.installCalls, v ∉ x.before.installed
  mem_installed : ∀ v, v ∈ x.after.installed ↔ v ∈ x.before.installed ∨ x.Installs v
  of_ok : ∀ v, x.answer = .ok v → v ∈ x.after.installed ∧ Accepts x.request.constraint v
  of_error : ∀ e, x.answer = .error e → x.after.installed = x.before.installed

theorem Regular.mem_after {x : Service} (h : x.Regular) {v : Version}
    (hv : v ∈ x.before.installed) : v ∈ x.after.installed :=
  (h.mem_installed v).mpr (Or.inl hv)

end Service

namespace Selector

/-- Serve requests one after the other. -/
def serveAll (tools : Toolchain) (s : Selector) : List Request → List Service
  | [] => []
  | q :: requests => s.serve tools q :: (s.serve tools q).after.serveAll tools requests

/-- The selector after some requests. -/
def afterAll (tools : Toolchain) (s : Selector) : List Request → Selector
  | [] => s
  | q :: requests => (s.serve tools q).after.afterAll tools requests

/-! ## One request -/

/-- The selector with one more call to install a version in its log. -/
def noteInstall (s : Selector) (v : Version) : Selector :=
  { s with log := { s.log with installs := s.log.installs ++ [v] } }

/-- The selector that knows of one more installed version. -/
def addInstalled (s : Selector) (v : Version) : Selector :=
  { s with installed := s.installed.insert v }

/-- What a request can come to: what the selector is afterwards, and the answer. -/
inductive Outcome (tools : Toolchain) (s : Selector) (q : Request) :
    Selector → Except Error Version → Prop where
  | found {v : Version} (hmem : v ∈ s.installed) (haccepts : Accepts q.constraint v) :
    Outcome tools s q s (.ok v)
  | installed {v : Version} (hlacks : s.Lacks q) (hmem : v ∈ (s.probe tools).available)
    (haccepts : Accepts q.constraint v) (hinstall : q.install v = .ok ()) :
    Outcome tools s q (((s.probe tools).noteInstall v).addInstalled v) (.ok v)
  | refused {v : Version} {e : Error} (hlacks : s.Lacks q)
    (hmem : v ∈ (s.probe tools).available) (haccepts : Accepts q.constraint v)
    (hinstall : q.install v = .error e) :
    Outcome tools s q ((s.probe tools).noteInstall v) (.error e)
  | none (hlacks : s.Lacks q) :
    Outcome tools s q (s.probe tools) (.error (noCompilerFor q.constraint))

variable {tools : Toolchain} {s s' : Selector} {q : Request} {answer : Except Error Version}

/-- **What one request comes to.** -/
theorem outcome_serve (tools : Toolchain) (s : Selector) (q : Request) :
    Outcome tools s q (s.serve tools q).after (s.serve tools q).answer := by
  have hprobe : s.probe { tools with install := q.install } = s.probe tools := rfl
  have hconstraint : q.pragmas.constraint? q.file = q.constraint := rfl
  have hempty : (acceptable q.constraint ∅).max? = none :=
    max?_acceptable_eq_none.mpr fun v hv => absurd hv Std.ExtTreeSet.not_mem_empty
  unfold serve select
  dsimp only
  rw [hprobe, hconstraint, installed_probe]
  cases hinstalled : (acceptable q.constraint s.installed).max? with
  | some v =>
    obtain ⟨hmem, haccepts⟩ := mem_of_max? hinstalled
    simp only [selectVersion, hinstalled, obtain]
    exact .found hmem haccepts
  | none =>
    have hlacks : s.Lacks q := max?_acceptable_eq_none.mp hinstalled
    cases havailable : (acceptable q.constraint (s.probe tools).available).max? with
    | none =>
      simp only [selectVersion, hinstalled, hempty, havailable]
      exact .none hlacks
    | some v =>
      obtain ⟨hmem, haccepts⟩ := mem_of_max? havailable
      simp only [selectVersion, hinstalled, hempty, havailable, obtain]
      cases hinstall : q.install v with
      | ok u => exact .installed hlacks hmem haccepts hinstall
      | error e => exact .refused hlacks hmem haccepts hinstall

theorem installs_probe (s : Selector) : (s.probe tools).log.installs = s.log.installs := by
  unfold probe
  split <;> rfl

theorem installs_noteInstall_probe (s : Selector) (v : Version) :
    ((s.probe tools).noteInstall v).log.installs = s.log.installs ++ [v] :=
  congrArg (· ++ [v]) (installs_probe s)

theorem mem_addInstalled {u v : Version} :
    u ∈ (s.addInstalled v).installed ↔ u ∈ s.installed ∨ u = v := by
  rw [addInstalled, Std.ExtTreeSet.mem_insert, Std.LawfulEqCmp.compare_eq_iff_eq, eq_comm (a := v),
    or_comm]

theorem Lacks.not_mem (h : s.Lacks q) {v : Version} (haccepts : Accepts q.constraint v) :
    v ∉ s.installed :=
  fun hv => h v hv haccepts

/-- Regularity, in terms of the versions that were added to the log. -/
theorem regular_of_calls (calls : List Version)
    (hlacks : s.log.probes < s'.log.probes → s.Lacks q)
    (hcalls : s'.log.installs = s.log.installs ++ calls)
    (hfresh : ∀ v ∈ calls, v ∉ s.installed)
    (hinstalled : ∀ v, v ∈ s'.installed ↔ v ∈ s.installed ∨ v ∈ calls ∧ q.install v = .ok ())
    (hok : ∀ v, answer = .ok v → v ∈ s'.installed ∧ Accepts q.constraint v)
    (herror : ∀ e, answer = .error e → s'.installed = s.installed) :
    Service.Regular ⟨q, s, s', answer⟩ := by
  obtain rfl : Service.installCalls ⟨q, s, s', answer⟩ = calls := Service.installCalls_of_eq hcalls
  exact ⟨hlacks, hcalls, hfresh, hinstalled, hok, herror⟩

/-- **What holds of one request.** -/
theorem Outcome.regular (h : Outcome tools s q s' answer) :
    Service.Regular ⟨q, s, s', answer⟩ := by
  cases h with
  | found hmem haccepts =>
    refine regular_of_calls [] (fun h => absurd h (Nat.lt_irrefl _)) (by simp)
      (by simp) (by simp) ?_ (fun _ _ => rfl)
    rintro u ⟨⟩
    exact ⟨hmem, haccepts⟩
  | @installed v hlacks hmem haccepts hinstall =>
    refine regular_of_calls [v] (fun _ => hlacks) (installs_noteInstall_probe s v) ?_ ?_ ?_
      (fun _ h => nomatch h)
    · simpa using hlacks.not_mem haccepts
    · intro u
      rw [mem_addInstalled, List.mem_singleton]
      change u ∈ (s.probe tools).installed ∨ _ ↔ _
      rw [installed_probe]
      refine or_congr_right ⟨?_, And.left⟩
      rintro rfl
      exact ⟨rfl, hinstall⟩
    · rintro u ⟨⟩
      exact ⟨mem_addInstalled.mpr (Or.inr rfl), haccepts⟩
  | @refused v e hlacks hmem haccepts hinstall =>
    refine regular_of_calls [v] (fun _ => hlacks) (installs_noteInstall_probe s v) ?_ ?_
      (fun _ h => nomatch h) (fun _ _ => installed_probe s)
    · simpa using hlacks.not_mem haccepts
    · intro u
      change u ∈ (s.probe tools).installed ↔ _
      rw [installed_probe, List.mem_singleton]
      refine ⟨Or.inl, Or.rec id ?_⟩
      rintro ⟨rfl, hok⟩
      rw [hinstall] at hok
      cases hok
  | none hlacks =>
    refine regular_of_calls [] (fun _ => hlacks) ?_ (by simp) ?_ (fun _ h => nomatch h)
      (fun _ _ => installed_probe s)
    · rw [installs_probe, List.append_nil]
    · simp [installed_probe]

/-! ## Many requests -/

/-- What a selector keeps true: its versions have no build metadata, and it has asked what can be
installed once, if it has asked. -/
structure Books (probes : Nat) (s : Selector) : Prop where
  stripped : s.Stripped
  probes_eq : s.log.probes = probes + s.probed.toNat

variable {probes : Nat}

theorem Books.probe (h : Books probes s) : Books probes (s.probe tools) := by
  refine ⟨h.stripped.probe, ?_⟩
  unfold Selector.probe
  split
  · exact h.probes_eq
  · rename_i hprobed
    have heq := h.probes_eq
    simp only [hprobed] at heq
    simp [heq]

/-- What a selector keeps true over a request. -/
theorem Books.outcome (h : Books probes s) (houtcome : Outcome tools s q s' answer) :
    Books probes s' ∧ ∀ v, answer = .ok v → v.build = [] := by
  cases houtcome with
  | found hmem haccepts =>
    refine ⟨h, ?_⟩
    rintro u ⟨⟩
    exact h.stripped.installed _ hmem
  | @installed v hlacks hmem haccepts hinstall =>
    have hprobe : Books probes (s.probe tools) := h.probe
    have hbuild : v.build = [] := hprobe.stripped.available v hmem
    refine ⟨⟨⟨fun u hu => ?_, hprobe.stripped.available⟩, hprobe.probes_eq⟩, ?_⟩
    · rcases mem_addInstalled.mp hu with hu | rfl
      · exact hprobe.stripped.installed u hu
      · exact hbuild
    · rintro u ⟨⟩
      exact hbuild
  | refused hlacks hmem haccepts hinstall =>
    have hprobe : Books probes (s.probe tools) := h.probe
    exact ⟨⟨⟨hprobe.stripped.installed, hprobe.stripped.available⟩, hprobe.probes_eq⟩,
      fun _ h => nomatch h⟩
  | none hlacks => exact ⟨h.probe, fun _ h => nomatch h⟩

theorem Books.start {log : ToolchainLog} (h : Selector.start tools log = .ok s) :
    Books log.probes s := by
  refine ⟨(Serving.start h).stripped, ?_⟩
  unfold Selector.start at h
  cases hversions : tools.installed with
  | error e =>
    rw [hversions] at h
    cases h
  | ok versions =>
    rw [hversions] at h
    cases h
    rfl

/-- What any requests have made of the installed versions and of the calls to the toolchain. -/
structure Account (initial : Versions) (log : ToolchainLog) (run : List Service)
    (last : Selector) : Prop where
  regular : ∀ x ∈ run, x.Regular
  /-- At most one request asks what can be installed. -/
  probes_le : last.log.probes ≤ log.probes + 1
  installs_eq : last.log.installs = log.installs ++ run.flatMap Service.installCalls
  mem_installed : ∀ v, v ∈ last.installed ↔
    (∃ u ∈ initial, u.stripBuild = v) ∨ ∃ x ∈ run, x.Installs v
  /-- What was installed is not installed again. -/
  pairwise : run.Pairwise fun x y => ∀ v, x.Installs v → v ∉ y.installCalls
  build_eq_nil : ∀ x ∈ run, ∀ v, x.answer = .ok v → v.build = []

variable (tools) (s)

theorem regular_serve (q : Request) : (s.serve tools q).Regular :=
  (outcome_serve tools s q).regular

variable {tools} {s}

theorem regular_of_mem_serveAll {requests : List Request} {x : Service}
    (hx : x ∈ s.serveAll tools requests) : x.Regular := by
  induction requests generalizing s with
  | nil => cases hx
  | cons q requests ih =>
    rcases List.mem_cons.mp hx with rfl | hx
    · exact regular_serve tools s q
    · exact ih hx

/-- What is installed is still there at each later request. -/
theorem mem_before_of_mem_serveAll {requests : List Request} {v : Version} (hv : v ∈ s.installed)
    {x : Service} (hx : x ∈ s.serveAll tools requests) : v ∈ x.before.installed := by
  induction requests generalizing s with
  | nil => cases hx
  | cons q requests ih =>
    rcases List.mem_cons.mp hx with rfl | hx
    · exact hv
    · exact ih ((regular_serve tools s q).mem_after hv) hx

theorem mem_installed_afterAll (requests : List Request) (v : Version) :
    v ∈ (s.afterAll tools requests).installed ↔
      v ∈ s.installed ∨ ∃ x ∈ s.serveAll tools requests, x.Installs v := by
  induction requests generalizing s with
  | nil => simp [afterAll, serveAll]
  | cons q requests ih =>
    rw [afterAll, ih, (regular_serve tools s q).mem_installed v, serveAll, List.exists_mem_cons_iff,
      or_assoc]
    rfl

theorem installs_afterAll (requests : List Request) :
    (s.afterAll tools requests).log.installs =
      s.log.installs ++ (s.serveAll tools requests).flatMap Service.installCalls := by
  induction requests generalizing s with
  | nil => simp [afterAll, serveAll]
  | cons q requests ih =>
    rw [afterAll, ih, (regular_serve tools s q).installs_eq, serveAll, List.flatMap_cons,
      List.append_assoc]
    rfl

/-- No request installs again what an earlier one installed: it finds it there. -/
theorem pairwise_serveAll (requests : List Request) :
    (s.serveAll tools requests).Pairwise fun x y => ∀ v, x.Installs v → v ∉ y.installCalls := by
  induction requests generalizing s with
  | nil => exact List.Pairwise.nil
  | cons q requests ih =>
    refine List.pairwise_cons.mpr ⟨fun y hy v hv hcall => ?_, ih⟩
    have hmem : v ∈ (s.serve tools q).after.installed :=
      ((regular_serve tools s q).mem_installed v).mpr (Or.inr hv)
    exact (regular_of_mem_serveAll hy).not_mem_of_mem_installCalls v hcall
      (mem_before_of_mem_serveAll hmem hy)

theorem Books.serveAll (h : Books probes s) (tools : Toolchain) (requests : List Request) :
    Books probes (s.afterAll tools requests) ∧
      ∀ x ∈ s.serveAll tools requests, ∀ v, x.answer = .ok v → v.build = [] := by
  induction requests generalizing s with
  | nil => exact ⟨h, fun x hx => nomatch hx⟩
  | cons q requests ih =>
    obtain ⟨hafter, hbuild⟩ := h.outcome (outcome_serve tools s q)
    obtain ⟨hlast, hrest⟩ := ih hafter
    refine ⟨hlast, fun x hx => ?_⟩
    rcases List.mem_cons.mp hx with rfl | hx
    · exact hbuild
    · exact hrest x hx

/-- **What any requests make of a selector that was started**, where installing may fail at any
time: the installed versions are those of the start, without their build metadata, and those that
were installed since. -/
theorem account_serveAll {initial : Versions} {log : ToolchainLog}
    (hinitial : tools.installed = .ok initial) (hstart : Selector.start tools log = .ok s)
    (requests : List Request) :
    Account initial log (s.serveAll tools requests) (s.afterAll tools requests) := by
  obtain ⟨hbooks, hbuild⟩ := (Books.start hstart).serveAll tools requests
  have hs : s = ⟨stripBuilds initial, ∅, false, log⟩ := by
    rw [Selector.start, hinitial] at hstart
    exact (Except.ok.inj hstart).symm
  exact {
    regular := fun x hx => regular_of_mem_serveAll hx
    probes_le := by
      rw [hbooks.probes_eq]
      exact Nat.add_le_add_left (Bool.toNat_le _) _
    installs_eq := by rw [installs_afterAll, hs]
    mem_installed := fun v => by rw [mem_installed_afterAll, ← mem_stripBuilds, hs]
    pairwise := pairwise_serveAll requests
    build_eq_nil := hbuild }

/-- A toolchain with one version, whose build metadata it states, and one to install. -/
def nightly : Toolchain :=
  .ofLists (some [{ Version.release 0 8 4 with build := [⟨"commit".toList⟩] }])
    (some [.release 0 8 20]) []

/-- A request for version 0.8.20 or greater. -/
def fromTwenty (install : Version → Except Error Unit) : Request where
  install := install
  pragmas := .ofList [(.ofText ['A'], some ⟨">=0.8.20".toList, [[⟨.greaterEq, .patch 0 8 20⟩]]⟩)]
  file := .ofText ['A']

/-- Two requests for the same, where the first download fails. -/
def retries : List Request :=
  [fromTwenty fun v => .error (.install v "download failed".toList), fromTwenty fun _ => .ok (),
    fromTwenty fun _ => .ok ()]

/-- The first request is refused, the second installs the version, the third finds it. -/
theorem account_retries :
    ∃ initial s, nightly.installed = .ok initial ∧ Selector.start nightly ⟨[], 0⟩ = .ok s ∧
      ((s.serveAll nightly retries).map fun x => x.answer.toOption) =
        [none, some (.release 0 8 20), some (.release 0 8 20)] ∧
      Account initial ⟨[], 0⟩ (s.serveAll nightly retries) (s.afterAll nightly retries) := by
  refine ⟨_, _, rfl, rfl, by cbv, account_serveAll rfl rfl retries⟩

end Selector

end SolPlan
