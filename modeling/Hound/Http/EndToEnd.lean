import Hound.Http.Conversation
import Hound.Http.ServingSafe

/-!
# From the poller to the responses

What is proved of the bytes of one connection, of one connection among others and of the
server on its loop, put together: `end_to_end`. A run of the loop is for the server a run of
`HttpServer.machine` (`trace_runFrom`), this one leads the connection on an fd where its own
events lead it (`HttpServer.alone_run`), and its reads make it `Served`
(`served_of_reads`).
-/

namespace Hound.Http

open Lib Reactor Connection

variable {H : Type} {env : ServerEnv H}

/-- The events of a connection that reads `pieces`, one after the other. -/
def reads (env : ServerEnv H) (pieces : List Bytes) : List (ConnEvent H) :=
  pieces.map fun bs => .message env (.data bs)

theorem connMachine_message [HeadMemory] {s s' : Connection H × Exit} {r : ReadOutcome}
    (h : connMachine.step s (.message env r) = some s') :
    r.Fits s.1.readBuf ∧ s' = s.1.onMessage env r := by
  obtain ⟨c, exit⟩ := s
  cases exit with
  | threw e => cases h
  | loopEnd | badRequest | closedFirst =>
    obtain ⟨hfit, h⟩ := Option.ite_none_right_eq_some.mp h
    exact ⟨hfit, (Option.some.inj h).symm⟩

theorem closed_of_reads [HeadMemory] {pieces : List Bytes} {c c' : Connection H} {exit exit' : Exit}
    (hclosed : c.closed = true)
    (h : connMachine.runFrom (c, exit) (reads env pieces) = some (c', exit')) :
    c'.closed = true := by
  induction pieces generalizing exit with
  | nil =>
    cases h
    exact hclosed
  | cons bs pieces ih =>
    obtain ⟨s, hstep, hrest⟩ := Machine.runFrom_cons h
    obtain ⟨-, rfl⟩ := connMachine_message hstep
    rw [Connection.onMessage, if_pos hclosed] at hrest
    exact ih hrest

/-- The reads of an open connection, when what they bring is the beginning of well-formed
requests. -/
theorem served_of_reads [HeadMemory] {ms : List Message} (hms : ∀ m ∈ ms, m.Prompt)
    (hlen : (encodeAll ms).length ≤ kBlockSize) {pieces : List Bytes}
    (hne : ∀ bs ∈ pieces, bs ≠ []) {future stream : Bytes} {c c' : Connection H} {exit exit' : Exit}
    (hs : stream ++ pieces.flatten ++ future = encodeAll ms) (h : Served env stream c exit)
    (hrun : connMachine.runFrom (c, exit) (reads env pieces) = some (c', exit'))
    (hopen : c'.closed = false) : Served env (stream ++ pieces.flatten) c' exit' := by
  induction pieces generalizing stream c exit with
  | nil =>
    cases hrun
    rw [List.flatten_nil, List.append_nil]
    exact h
  | cons bs pieces ih =>
    rw [List.flatten_cons, ← List.append_assoc] at hs ⊢
    have hfirst : stream ++ (bs ++ pieces.flatten ++ future) = encodeAll ms := by
      rw [← hs]
      simp only [List.append_assoc]
    obtain ⟨rfl, -⟩ := h.replies hms hlen hfirst
    have hopen₀ : c.closed = false := Bool.eq_false_iff.mpr fun hclosed => by
      rw [closed_of_reads hclosed hrun] at hopen
      cases hopen
    obtain ⟨s, hstep, hrest⟩ := Machine.runFrom_cons hrun
    obtain ⟨hfit, rfl⟩ := connMachine_message hstep
    exact ih (fun bs hbs => hne bs (List.mem_cons_of_mem _ hbs)) hs
      (.read h hopen₀ (hne bs List.mem_cons_self) hfit rfl) hrest

namespace Serving

variable {server : HttpServer H} {wakeupFd fd : Fd} {s s' : Serving H}
  {events more : List (LoopEvent H)} {c : Session H}

/-- **From the poller to the responses.** Let the loop run on from any state in which `fd` is free
and no erase from before a `stop` is left, up to the next `stop`, and let `fd` be open behind it:
if what it has read since its accept is the beginning of well-formed requests, together no
longer than a block, the first of these have been answered, in their order, each with what
the router, the handlers and the files make of it, and all of them once they are there in
full; whatever the other connections, the timers and the tasks did, and however often `fd`
was used before. -/
theorem end_to_end [HeadMemory] (h0 : server.Started) (hfd : server.isOpen wakeupFd = true)
    (h : (machine (created server wakeupFd)).run events = some s) (hstale : s.stale = [])
    (hfree : s.server.connections fd = none) (hstop : ∀ e ∈ more, ¬ e.Stops)
    (hmore : (machine (created server wakeupFd)).runFrom s more = some s')
    (ho : (HttpServer.machine s.server).Each (HttpServer.Orderly fd) (s.trace more))
    (hc : s'.server.connections fd = some c) (hopen : c.closed = false)
    {pieces : List Bytes} (hne : ∀ bs ∈ pieces, bs ≠ [])
    (hpast : HttpServer.history s.server fd s.server [] (s.trace more) = reads env pieces)
    {ms : List Message} (hms : ∀ m ∈ ms, m.Prompt) (hlen : (encodeAll ms).length ≤ kBlockSize)
    {future : Bytes} (hs : pieces.flatten ++ future = encodeAll ms) :
    ∃ done left, ms = done ++ left ∧
      sends c.log = env.dialogue (0, false) (done.map Message.request) ∧
      (future = [] → left = []) := by
  have hreached := reached h0 hfd h
  have htrace := trace_runFrom s.server hreached hstale hstop hmore
  have hnone : HttpServer.Alone fd s.server [] := fun c hc => by
    rw [hfree] at hc
    cases hc
  obtain ⟨exit, hrun, -⟩ := HttpServer.alone_run hreached.1.server hnone ho htrace c hc
  rw [hpast] at hrun
  have hserved : Served env ([] ++ pieces.flatten) c.toConnection exit :=
    served_of_reads hms hlen hne hs .accept hrun hopen
  obtain ⟨-, done, left, hsplit, hsends, hall⟩ := hserved.replies hms hlen hs
  exact ⟨done, left, hsplit, hsends, fun hfuture => (hall hfuture).1⟩

/-- A second client connects, then the first one sends its request. -/
def twoClients : List (LoopEvent Unit) :=
  restart.take 6 ++ [reports { read := [4, 5] }, .handle (accepts 6),
    .handle (brings (bytes "GET / HTTP/1.1\r\n\r\n") idleEnv)]

theorem twoClients_orderly :
    (HttpServer.machine HttpServer.small).Each (HttpServer.Orderly 5) (fresh.trace twoClients) := by
  refine ⟨trivial, fun _ h₁ => ⟨trivial, fun _ h₂ => ⟨trivial, fun _ h₃ =>
    ⟨?_, fun _ _ => trivial⟩⟩⟩⟩
  rintro - c hc -
  have hnew : c.toConnection = {} := by
    cases h₁
    cases h₂
    cases h₃
    cases hc
    rfl
  have hend : (({} : Connection Unit).onMessage idleEnv
      (.data (bytes "GET / HTTP/1.1\r\n\r\n"))).2 = .loopEnd := by decide +kernel
  rw [hnew]
  exact ⟨by decide +kernel, fun e he => by cases hend.symm.trans he⟩

theorem end_to_end_twoClients : ∃ c, (after twoClients).server.connections 5 = some c ∧
    sends c.log =
      idleEnv.dialogue (0, false) [(getMessage (bytes "/") (by decide)).request] := by
  let m := getMessage (bytes "/") (by decide)
  have hm : ∀ m' ∈ [m], m'.Prompt := by
    rintro _ (_ | ⟨_, ⟨⟩⟩)
    trivial
  have hopen : ((after twoClients).server.connections 5).any (fun c => !c.closed) = true := by
    decide +kernel
  have hne : ∀ bs ∈ [bytes "GET / HTTP/1.1\r\n\r\n"], bs ≠ [] := by decide
  have hs : [bytes "GET / HTTP/1.1\r\n\r\n"].flatten ++ [] = encodeAll [m] := by decide
  obtain ⟨c, hc, hc'⟩ := (Option.any_eq_true ..).mp hopen
  have hstart : (machine fresh).run [] = some fresh := rfl
  obtain ⟨done, left, hsplit, hsends, hall⟩ := end_to_end small_started rfl hstart rfl rfl
    (by simp [twoClients, restart, reports, LoopEvent.Stops])
    (show (machine fresh).runFrom fresh twoClients = some (after twoClients) from rfl)
    twoClients_orderly hc (by simpa using hc') hne rfl hm (by decide) hs
  rw [hall rfl, List.append_nil] at hsplit
  rw [← hsplit] at hsends
  exact ⟨c, hc, hsends⟩

end Serving

end Hound.Http
