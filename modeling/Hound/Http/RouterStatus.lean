import Hound.Http.RouterComplete
import Hound.Http.Server

/-!
# The status of a request without a handler

`route` sets `*resp` where the walk ends without an entry for the method. It leaves it alone
when there is no trie yet, and when the entry is a null handler (`route_cases`); the
default response of `handle_request` then goes out as it is, with status 200.
-/

namespace Hound.Http

variable {H : Type}

def HttpResponse.IsMissing (resp : HttpResponse) : Prop :=
  resp.statusCode = 404 ∨ resp.statusCode = 405

instance (resp : HttpResponse) : Decidable resp.IsMissing := inferInstanceAs (Decidable (_ ∨ _))

/-- What `route` owes its caller: an error status without a handler, and nothing with one. -/
structure SetsStatus (router : Router H) (req : HttpRequest) (resp : HttpResponse) : Prop where
  missing : (router.route req resp).1 = none → (router.route req resp).2.IsMissing
  found : ∀ h, (router.route req resp).1 = some h → (router.route req resp).2 = resp

/-- The handler that the last call for the request's method and the pattern its path is led to
passed, which may be a null one. -/
def entryFor (regs : List (Registration H)) (req : HttpRequest) : Option (Option H) :=
  (choose (followers regs) (segments req.path)).bind (lastAdd regs req.method.str)

/-- Some route was added, and the request does not meet a null handler. -/
def Routed (regs : List (Registration H)) (req : HttpRequest) : Prop :=
  regs ≠ [] ∧ entryFor regs req ≠ some none

/-- The request meets a handler. -/
def Handled (regs : List (Registration H)) (req : HttpRequest) : Prop :=
  ∃ h, entryFor regs req = some (some h)

/-- `handle_request` looks for a file, and this is what it opens. -/
def Finds (env : ServerEnv H) (c : Connection H) (req : HttpRequest) (file : OpenFile) : Prop :=
  env.staticDir ≠ [] ∧ req.method = .get ∧
    env.file c.turn (env.staticDir ++ req.path) = some file

/-- There is a readable static file for the request. -/
def ServesFile (env : ServerEnv H) (c : Connection H) (req : HttpRequest) : Prop :=
  ∃ file, Finds env c req file ∧ file.failed = false

/-- In place of a static file there is something that opens and cannot be read. -/
def OpensUnreadable (env : ServerEnv H) (c : Connection H) (req : HttpRequest) : Prop :=
  ∃ file, Finds env c req file ∧ file.failed = true

/-- Without a handler and a readable file, the answer is not 200. -/
def NotOk (env : ServerEnv H) (c : Connection H) (req : HttpRequest) : Prop :=
  (c.respond env req).1 = none → ¬ ServesFile env c req → (c.respond env req).2.statusCode ≠ 200

/-! ## The ways out of `route` -/

theorem Router.root_addAll (regs : List (Registration H)) :
    (Router.addAll regs).root = none ↔ regs = [] := by
  induction regs using List.reverseRecOn with
  | nil => exact iff_of_true rfl rfl
  | append_singleton regs a ih =>
    rw [Router.addAll_concat]
    exact iff_of_false nofun (by simp)

theorem Router.route_empty {r : Router H} (h : r.root = none) (req : HttpRequest)
    (resp : HttpResponse) : r.route req resp = (none, resp) := by
  unfold Router.route
  rw [h]

section Calls

variable {regs : List (Registration H)} {req : HttpRequest}

theorem Handled.routed (h : Handled regs req) : Routed regs req := by
  obtain ⟨f, hf⟩ := h
  refine ⟨?_, by simp [hf]⟩
  rintro rfl
  unfold entryFor at hf
  obtain ⟨pattern, -, hadd⟩ := Option.bind_eq_some_iff.mp hf
  cases hadd

/-- After any calls: `*resp` is left alone unless the request is routed, and then unless there
is a handler. -/
theorem route_addAll_cases (regs : List (Registration H)) (req : HttpRequest)
    (resp : HttpResponse) :
    (¬ Routed regs req ∧ (Router.addAll regs).route req resp = (none, resp)) ∨
    (Handled regs req ∧ ∃ h, (Router.addAll regs).route req resp = (some h, resp)) ∨
    ((Routed regs req ∧ ¬ Handled regs req) ∧
      ∃ resp', (Router.addAll regs).route req resp = (none, resp') ∧ resp'.statusCode = 404) := by
  by_cases hregs : regs = []
  · exact .inl ⟨fun h => h.1 hregs, Router.route_empty ((Router.root_addAll regs).mpr hregs) ..⟩
  have hroot := mt (Router.root_addAll regs).mp hregs
  have hentry : (choose (Router.addAll regs).nexts (segments req.path)).bind
      ((Router.addAll regs).stored req.method.str) = entryFor regs req := by
    rw [choose_addAll, funext (Router.stored_addAll regs req.method.str), entryFor]
  rcases Router.route_cases (Router.wf_addAll regs) hroot req resp with
    ⟨handler, hent, hr⟩ | ⟨hent, hr⟩
  · rw [hentry] at hent
    cases handler with
    | none => exact .inl ⟨fun h => h.2 hent, hr⟩
    | some h => exact .inr (.inl ⟨⟨h, hent⟩, h, hr⟩)
  · rw [hentry] at hent
    refine .inr (.inr ⟨⟨⟨hregs, by simp [hent]⟩, ?_⟩, hr⟩)
    rintro ⟨h, hsome⟩
    cases hent.symm.trans hsome

theorem sets_status_iff (regs : List (Registration H)) (req : HttpRequest)
    (resp : HttpResponse) :
    SetsStatus (Router.addAll regs) req resp ↔ resp.IsMissing ∨ Routed regs req := by
  rcases route_addAll_cases regs req resp with ⟨hno, hr⟩ | ⟨hyes, h, hr⟩ | ⟨hyes, resp', hr, h404⟩
  · refine ⟨fun h => .inl ?_, fun h => ⟨fun _ => ?_, fun f hf => ?_⟩⟩
    · simpa [hr] using h.missing (by rw [hr])
    · rw [hr]
      exact h.resolve_right hno
    · rw [hr] at hf
      cases hf
  · refine iff_of_true ⟨fun hf => ?_, fun f _ => by rw [hr]⟩ (.inr hyes.routed)
    rw [hr] at hf
    cases hf
  · refine iff_of_true ⟨fun _ => by rw [hr]; exact .inl h404, fun f hf => ?_⟩ (.inr hyes.1)
    rw [hr] at hf
    cases hf

/-- What `handle_request` answers, by what `route` says of a default response. -/
theorem respond_handler (env : ServerEnv H) (c : Connection H) {h : H} {resp : HttpResponse}
    (hr : env.router.route req {} = (some h, resp)) : (c.respond env req).1 = some h := by
  unfold Connection.respond
  rw [hr]

theorem status_unreadable (env : ServerEnv H) (c : Connection H) {resp : HttpResponse}
    (hr : env.router.route req {} = (none, resp)) (hopens : OpensUnreadable env c req) :
    (c.respond env req).1 = none ∧ (c.respond env req).2.statusCode = 200 := by
  obtain ⟨file, ⟨hdir, hget, hfound⟩, -⟩ := hopens
  have hresp : c.respond env req = (none, .ok file.data (bytes "text/html")) := by
    unfold Connection.respond
    rw [hr]
    simp only [if_pos (And.intro hdir hget), hfound]
  rw [hresp, HttpResponse.ok]
  refine ⟨rfl, ?_⟩
  split <;> rfl

theorem respond_none (env : ServerEnv H) (c : Connection H) {resp : HttpResponse}
    (hr : env.router.route req {} = (none, resp)) (hfile : ¬ ServesFile env c req)
    (hopens : ¬ OpensUnreadable env c req) : c.respond env req = (none, resp) := by
  unfold Connection.respond
  rw [hr]
  simp only
  split
  · next hget =>
    cases hf : env.file c.turn (env.staticDir ++ req.path) with
    | none => rfl
    | some file =>
      have hfound : Finds env c req file := ⟨hget.1, hget.2, hf⟩
      cases hfailed : file.failed with
      | true => exact absurd ⟨file, hfound, hfailed⟩ hopens
      | false => exact absurd ⟨file, hfound, hfailed⟩ hfile
  · rfl

theorem not_ok_iff (regs : List (Registration H)) (req : HttpRequest) (env : ServerEnv H)
    (c : Connection H) :
    NotOk { env with router := Router.addAll regs } c req ↔
      ServesFile env c req ∨ Handled regs req ∨
        (Routed regs req ∧ ¬ OpensUnreadable env c req) := by
  by_cases hfile : ServesFile env c req
  · exact iff_of_true (fun _ hno => absurd hfile hno) (.inl hfile)
  rw [or_iff_right hfile]
  by_cases hhandled : Handled regs req
  · refine iff_of_true (fun hn => ?_) (.inl hhandled)
    rcases route_addAll_cases regs req {} with ⟨hno, -⟩ | ⟨-, h, hr⟩ | ⟨⟨-, hnone⟩, -⟩
    · exact absurd hhandled.routed hno
    · rw [respond_handler { env with router := Router.addAll regs } c hr] at hn
      cases hn
    · exact absurd hhandled hnone
  rw [or_iff_right hhandled]
  have hnull : ∃ resp, (Router.addAll regs).route req {} = (none, resp) ∧
      (resp.statusCode ≠ 200 ↔ Routed regs req) := by
    rcases route_addAll_cases regs req {} with ⟨hno, hr⟩ | ⟨hyes, -⟩ | ⟨⟨hyes, -⟩, resp, hr, h404⟩
    · exact ⟨_, hr, iff_of_false (fun h => h rfl) hno⟩
    · exact absurd hyes hhandled
    · exact ⟨resp, hr, iff_of_true (by rw [h404]; decide) hyes⟩
  obtain ⟨resp, hr, hstatus⟩ := hnull
  by_cases hopens : OpensUnreadable env c req
  · have h200 := status_unreadable { env with router := Router.addAll regs } c hr hopens
    exact iff_of_false (fun h => h h200.1 hfile h200.2) fun h => h.2 hopens
  · rw [and_iff_left hopens, NotOk,
      respond_none { env with router := Router.addAll regs } c hr hfile hopens]
    exact ⟨fun h => hstatus.mp (h rfl hfile), fun h _ _ => hstatus.mpr h⟩

/-- **When a request without a handler gets an error status.** From `route`: exactly when the
router has routes and the request does not meet a null handler (or the response came with such a
status). From the server, which starts from a default response: exactly when `route` sets one and
nothing is opened in place of a file that cannot be read. -/
theorem unroutable_iff (regs : List (Registration H)) (req : HttpRequest) :
    (∀ resp, SetsStatus (Router.addAll regs) req resp ↔ resp.IsMissing ∨ Routed regs req) ∧
    ∀ (env : ServerEnv H) (c : Connection H),
      NotOk { env with router := Router.addAll regs } c req ↔
        ServesFile env c req ∨ Handled regs req ∨
          (Routed regs req ∧ ¬ OpensUnreadable env c req) :=
  ⟨sets_status_iff regs req, not_ok_iff regs req⟩

end Calls

/-- `GET /` without routes: `route` leaves the default response alone, and a server without
files answers 200. -/
theorem no_routes_ok :
    ((Router.addAll ([] : List (Registration Unit))).route { method := .get, path := bytes "/" }
      {}).1 = none ∧
    ¬ SetsStatus (Router.addAll ([] : List (Registration Unit)))
      { method := .get, path := bytes "/" } {} ∧
    ¬ NotOk { idleEnv with router := Router.addAll [] } {}
      { method := .get, path := bytes "/" } := by
  refine ⟨rfl, fun h => ?_, fun h => ?_⟩
  · exact absurd (h.missing rfl) (by decide)
  · exact h rfl (fun ⟨_, hfound, _⟩ => hfound.1 rfl) rfl

/-- A server with one route, whose static directory is asked for `/`. -/
def directoryEnv : ServerEnv Unit :=
  { idleEnv with
    router := Router.addAll [⟨bytes "GET", bytes "/hello", some ()⟩]
    staticDir := bytes "/srv/www"
    file := fun _ _ => some ⟨[], true⟩ }

/-- `ifstream` opens a directory, and the answer is an empty 200. -/
example : ¬ NotOk directoryEnv {} { method := .get, path := bytes "/" } := by
  intro h
  refine h rfl ?_ rfl
  rintro ⟨file, ⟨-, -, hfound⟩, hreadable⟩
  cases hfound
  cases hreadable

end Hound.Http
