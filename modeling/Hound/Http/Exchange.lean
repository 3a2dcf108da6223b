import Hound.Http.Client
import Hound.Http.Conversation
import Hound.Http.RouterTable

/-!
# Client and server

A client sends requests without waiting and reads what comes back (`readReplies`); between it and
the connection stand two streams of bytes, each of which may be cut anywhere. `exchange`: whatever
part of either has arrived, the client has read the responses to the first of its requests, one
for each and in their order. The socket may take less than a whole response, but then nothing
behind it (`Halts`, which `send_response` does not see to).
-/

namespace Hound.Http

open Lib Connection HttpResponse

variable {H : Type}

namespace ServerEnv

variable (env : ServerEnv H)

def responses : Nat × Bool → List HttpRequest → List HttpResponse
  | _, [] => []
  | s, req :: reqs => env.response s.1 req :: responses (env.heard s req) reqs

theorem dialogue_text (s : Nat × Bool) (reqs : List HttpRequest) :
    (env.dialogue s reqs).flatMap Prod.fst =
      (env.responses s reqs).flatMap (·.serialize env.order) := by
  induction reqs generalizing s with
  | nil => rfl
  | cons req reqs ih =>
    rw [dialogue, responses, List.flatMap_cons, List.flatMap_cons, ih, answer]

theorem responses_append (s : Nat × Bool) (reqs reqs' : List HttpRequest) :
    env.responses s (reqs ++ reqs') =
      env.responses s reqs ++ env.responses (reqs.foldl env.heard s) reqs' := by
  induction reqs generalizing s with
  | nil => rfl
  | cons req reqs ih => exact congrArg (_ :: ·) (ih _)

theorem length_responses (s : Nat × Bool) (reqs : List HttpRequest) :
    (env.responses s reqs).length = reqs.length := by
  induction reqs generalizing s with
  | nil => rfl
  | cons req reqs ih => exact congrArg Nat.succ (ih _)

theorem mem_responses {s : Nat × Bool} {reqs : List HttpRequest} {r : HttpResponse}
    (h : r ∈ env.responses s reqs) : ∃ k req, r = env.response k req := by
  induction reqs generalizing s with
  | nil => cases h
  | cons req reqs ih =>
    rcases List.mem_cons.mp h with rfl | h
    · exact ⟨_, _, rfl⟩
    · exact ih h

theorem responses_split {s : Nat × Bool} {reqs : List HttpRequest} {done left : List HttpResponse}
    (h : env.responses s reqs = done ++ left) :
    done = env.responses s (reqs.take done.length) := by
  have hsplit := env.responses_append s (reqs.take done.length) (reqs.drop done.length)
  rw [List.take_append_drop, h] at hsplit
  refine (List.append_inj hsplit ?_).1
  have hlen := congrArg List.length h
  rw [length_responses, List.length_append] at hlen
  rw [length_responses, List.length_take]
  omega

end ServerEnv

/-- Behind a response that was not accepted whole, nothing is accepted. -/
def Connection.Halts (log : List (Event H)) : Prop :=
  (sends log).Pairwise fun a b => taken a = a.1 ∨ taken b = []

theorem Connection.Halts.accepted_prefix {log : List (Event H)} (h : Halts log) :
    accepted log <+: (sends log).flatMap Prod.fst := by
  unfold Halts at h
  unfold accepted
  generalize sends log = said at h
  induction said with
  | nil => exact List.prefix_rfl
  | cons said more ih =>
    obtain ⟨hfirst, hmore⟩ := List.pairwise_cons.mp h
    rw [List.flatMap_cons, List.flatMap_cons]
    by_cases hwhole : taken said = said.1
    · rw [hwhole]
      exact (List.prefix_append_right_inj _).mpr (ih hmore)
    · have hnone : more.flatMap taken = [] :=
        List.flatMap_eq_nil_iff.mpr fun next hin => (hfirst next hin).resolve_left hwhole
      rw [hnone, List.append_nil]
      exact (List.take_prefix _ _).trans (List.prefix_append _ _)

variable {env : ServerEnv H} {c : Connection H} {exit : Exit} {stream future : Bytes}

/-- A server with routes, whose handlers build readable responses and whose files are not empty,
sends nothing else. -/
theorem ServerEnv.response_readable {calls : List (Registration H)}
    (hrouter : env.router = Router.addAll calls) (hcalls : calls ≠ [])
    (hhandlers : ∀ a ∈ calls, a.handler.isSome)
    (hinvoke : ∀ k f req, (env.invoke k f req {}).Readable)
    (hfile : ∀ k name file, env.file k name = some file → file.data ≠ []) (k : Nat)
    (req : HttpRequest) : (env.response k req).Readable := by
  unfold response
  cases hroute : env.router.route req {} with
  | mk handler resp =>
    refine Readable.setKeepAlive ?_ req.keepAlive
    cases handler with
    | some f =>
      have hresp := Router.route_some (congrArg Prod.fst hroute)
      rw [hroute] at hresp
      obtain rfl : resp = {} := hresp
      exact hinvoke k f req
    | none =>
      have hmissing : ∃ body, resp = .notFound body := by
        rw [hrouter] at hroute
        have hnone := congrArg Prod.fst hroute
        obtain ⟨body, hbody⟩ := route_missing hcalls hhandlers hnone
        rw [hroute] at hbody
        exact ⟨body, hbody⟩
      obtain ⟨body, rfl⟩ := hmissing
      simp only
      split
      · cases hfound : env.file k (env.staticDir ++ req.path) with
        | none => exact readable_notFound body
        | some file => exact readable_ok (hfile _ _ _ hfound) (by decide)
      · exact readable_notFound body

/-- **The exchange.** A client has sent a part of its well-formed requests, together no longer than
a block, and received a part `w` of what the socket accepted: it has read the responses to the first
of the requests, one for each and in their order, and nothing it could take for another one. Once
all has been sent, accepted and received, it has read the response to every request. -/
theorem exchange [HeadMemory] {ms : List Message} (hms : ∀ m ∈ ms, m.Prompt)
    (hlen : (encodeAll ms).length ≤ kBlockSize) (h : Served env stream c exit)
    (hs : stream ++ future = encodeAll ms) (hgood : ∀ k req, (env.response k req).Readable)
    (hhalts : Halts c.log) {w : Bytes} (hw : w <+: accepted c.log) :
    ∃ done left part, ms = done ++ left ∧
      readReplies w =
        ((env.responses (0, false) (done.map Message.request)).map (seen env.order), part) ∧
      (future = [] → (∀ said ∈ sends c.log, taken said = said.1) → w = accepted c.log →
        left = [] ∧ part = []) := by
  obtain ⟨-, answered, waiting, rfl, hsends, hall⟩ := h.replies hms hlen hs
  let reqs := answered.map Message.request
  have htext : (sends c.log).flatMap Prod.fst =
      (env.responses (0, false) reqs).flatMap (·.serialize env.order) := by
    rw [hsends, env.dialogue_text]
  have hreadable : ∀ r ∈ env.responses (0, false) reqs, r.Readable := by
    intro r hr
    obtain ⟨k, req, rfl⟩ := env.mem_responses hr
    exact hgood k req
  obtain ⟨done, left, part, hsplit, hreplies, -, -⟩ :=
    readReplies_part hreadable (hw.trans (htext ▸ hhalts.accepted_prefix))
  refine ⟨answered.take done.length, answered.drop done.length ++ waiting, part, ?_, ?_, ?_⟩
  · rw [← List.append_assoc, List.take_append_drop]
  · rw [hreplies, List.map_take, ← env.responses_split hsplit]
  · rintro hfuture hwhole rfl
    have hacc : accepted c.log =
        (env.responses (0, false) reqs).flatMap (·.serialize env.order) := by
      rw [← htext]
      exact List.flatMap_congr hwhole
    have hfull : readReplies (accepted c.log) =
        ((env.responses (0, false) reqs).map (seen env.order), []) := by
      rw [hacc]
      exact (readReply_undoes env.order).readAll_flatMap hreadable
    obtain ⟨hsame, rfl⟩ := Prod.mk.inj (hreplies.symm.trans hfull)
    have hlength := congrArg List.length hsame
    rw [List.length_map, List.length_map, env.length_responses, List.length_map] at hlength
    rw [(hall hfuture).1, hlength, List.drop_length]
    exact ⟨rfl, rfl⟩

/-- A server that says hello on `/`. -/
def helloEnv : ServerEnv Unit :=
  { idleEnv with
    router := Router.addAll [⟨bytes "GET", bytes "/", some ()⟩]
    invoke := fun _ _ _ resp => resp.setBody (bytes "hello") }

theorem helloEnv_readable (k : Nat) (req : HttpRequest) : (helloEnv.response k req).Readable := by
  have hinvoke : ∀ k f req, (helloEnv.invoke k f req {}).Readable :=
    fun _ _ _ => tidy_default.setBody _
  have hfile : ∀ k name file, helloEnv.file k name = some file → file.data ≠ [] :=
    fun _ _ _ h => by cases h
  exact ServerEnv.response_readable rfl (by simp) (by simp) hinvoke hfile k req

/-- Two requests in one read; one byte of the second response is still to come. -/
theorem exchange_hello : ∃ c exit done left part,
    Served helloEnv
      (encodeAll [getMessage (bytes "/") (by decide), getMessage (bytes "/") (by decide)]) c exit ∧
    [getMessage (bytes "/") (by decide), getMessage (bytes "/") (by decide)] = done ++ left ∧
    readReplies ((accepted c.log).take 70) = ((helloEnv.responses (0, false)
      (done.map Message.request)).map (seen helloEnv.order), part) := by
  let m := getMessage (bytes "/") (by decide)
  have hms : ∀ m' ∈ [m, m], m'.Prompt := by
    rintro _ (_ | ⟨_, _ | ⟨_, ⟨⟩⟩⟩) <;> trivial
  have h : Served helloEnv (encodeAll [m, m]) _ .loopEnd :=
    Served.accept.next (encodeAll [m, m]) (by decide +kernel)
  have hhalts :
      Halts (({} : Connection Unit).onMessage helloEnv (.data (encodeAll [m, m]))).1.log := by
    unfold Halts
    decide +kernel
  obtain ⟨done, left, part, hsplit, hreplies, -⟩ :=
    exchange hms (by decide) h (List.append_nil _) helloEnv_readable hhalts (List.take_prefix 70 _)
  exact ⟨_, _, done, left, part, h, hsplit, hreplies⟩

end Hound.Http
