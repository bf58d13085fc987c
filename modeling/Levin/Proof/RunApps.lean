import Levin.Core.Server
import Levin.Proof.Application.Chain

/-!
# The servers of `run_apps`

`run_apps` makes a server of each argument. A pair that is passed flat is two
arguments, and so there are two servers for it, the first without a port. All pairs get
one server each exactly if they are all tuples (`runApps_iff`).
-/

namespace Levin

open Framework Bytes

variable {V : Type}

/-- A pair of an application and its port, as it is passed to `run_apps`. -/
inductive AppForm (V : Type)
  | tuple (app port : V)
  /-- `app, port` -/
  | flat (app port : V)

namespace AppForm

def args : AppForm V → List (AppArg V)
  | tuple app port => [.sequence [app, port]]
  | flat app port => [.single app, .single port]

def isTuple : AppForm V → Bool
  | tuple _ _ => true
  | flat _ _ => false

/-- The server of a pair. -/
def server : AppForm V → Server V
  | tuple app port | flat app port => { app, host := ascii "0.0.0.0", port }

end AppForm

/-- Each pair has one server, which is started, in order, whatever the applications do when they start. -/
def OneServerEach [PyValue V] (forms : List (AppForm V)) : Prop :=
  ∀ start : V → Except Exc Unit, runApps start (forms.flatMap AppForm.args) = run start (forms.map AppForm.server)

section Servers

theorem startServers_ok (servers : List (Server V)) :
    startServers (fun _ => .ok ()) servers = (servers.map fun server => .start server.app, .ok ()) := by
  induction servers with
  | nil => rfl
  | cons server servers ih => simp [startServers, ih]

/-- If the applications start, all servers listen. -/
theorem run_ok (servers : List (Server V)) : run (fun _ => .ok ()) servers =
    ((servers.map fun server => .start server.app) ++ servers.map .listen, .ok ()) := by
  rw [run, startServers_ok]

theorem length_args (forms : List (AppForm V)) :
    (forms.flatMap AppForm.args).length = forms.length + forms.countP fun form => ! form.isTuple := by
  induction forms with
  | nil => rfl
  | cons form forms ih =>
    rw [List.flatMap_cons, List.length_append, ih, List.length_cons, List.countP_cons]
    cases form <;> simp [AppForm.args, AppForm.isTuple] <;> omega

variable [PyValue V] {servers : List (Server V)}

theorem appServers_tuples {forms : List (AppForm V)} (h : ∀ form ∈ forms, form.isTuple = true) (index : Nat) (app : V) :
    appServers index app (forms.flatMap AppForm.args) = .ok (forms.map AppForm.server) := by
  induction forms generalizing index app with
  | nil => rfl
  | cons form forms ih =>
    obtain ⟨hform, hforms⟩ := List.forall_mem_cons.mp h
    cases form with
    | tuple app port =>
      rw [List.flatMap_cons, AppForm.args, List.singleton_append, appServers]
      simp [ih hforms, Except.map, AppForm.server]
    | flat app port => cases hform

/-- There is a server for each argument. -/
theorem length_appServers {index : Nat} {app : V} {args : List (AppArg V)}
    (h : appServers index app args = .ok servers) : servers.length = args.length := by
  induction args generalizing index app servers with
  | nil =>
    cases h
    rfl
  | cons arg args ih =>
    have hmap : ∀ {app' : V} {first : Server V},
        ((appServers (index + 1) app' args).map fun servers => first :: servers) = .ok servers →
          servers.length = (arg :: args).length := by
      intro app' first hmap
      rcases hrest : appServers (index + 1) app' args with e | rest
      · simp [hrest, Except.map] at hmap
      · rw [hrest] at hmap
        cases hmap
        rw [List.length_cons, List.length_cons, ih hrest]
    unfold appServers at h
    split at h
    · exact hmap h
    · cases h
    · split at h
      · exact hmap h
      · exact hmap h

end Servers

variable [PyValue V]

theorem isTuple_of_oneServerEach {forms : List (AppForm V)} (h : OneServerEach forms) :
    ∀ form ∈ forms, form.isTuple = true := by
  have hrun := h fun _ => .ok ()
  rw [runApps, run_ok] at hrun
  rcases hservers : appServers 0 PyValue.none (forms.flatMap AppForm.args) with e | servers
  · simp [hservers] at hrun
  simp only [hservers, run_ok, Prod.mk.injEq, and_true] at hrun
  have hevents := congrArg List.length hrun
  have hlength := length_appServers hservers
  rw [length_args] at hlength
  simp only [List.length_append, List.length_map] at hevents
  have hcount : (forms.countP fun form => ! form.isTuple) = 0 := by omega
  intro form hform
  simpa using List.countP_eq_zero.mp hcount form hform

/-- `run_apps` starts one server for each pair, in order, exactly if they are all passed as tuples. -/
theorem runApps_iff (forms : List (AppForm V)) : OneServerEach forms ↔ ∀ form ∈ forms, form.isTuple = true := by
  refine ⟨isTuple_of_oneServerEach, fun h start => ?_⟩
  rw [runApps, appServers_tuples h]

/-- `run_apps(app, 8000)` makes two servers. -/
theorem flat_not_oneServer : ¬ ∀ forms : List (AppForm Application.Object), OneServerEach forms := by
  intro h
  have hlog := congrArg (fun out => out.1.length) (h [.flat (.str "app") (.number 8000)] fun _ => .ok ())
  exact absurd hlog (by decide)

end Levin
