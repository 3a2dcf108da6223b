import Hound.Http.ConnectionRuns
import Hound.Io.BufferQueue

/-!
# Two loops that end

The loop of `parse` consumes a byte each time it goes round; what it leaves is a parser that
another call does not move (`parse_progress`). The loop of `on_message` may go round without
consuming a byte, when a request completes on its own; `LoopRun` is that loop without fuel,
with the parsers that got to `DONE` in it, and `on_message_drains` says that every call runs
it to an end at which nothing is left to parse.
-/

namespace Hound.Http

open Lib HttpParser Connection

/-! ## The loop of `parse` -/

/-- The loop of `parse` goes round, from one parser and buffer to the next. -/
def GoesRound (s t : HttpParser × Buffer) : Prop :=
  s.2.size ≠ 0 ∧ ∃ c, c ≠ 0 ∧ s.1.dispatch s.2.window s.2.beyond = .ok (t.1, c) ∧
    t.2 = s.2.retrieve c

theorem GoesRound.size_lt {s t : HttpParser × Buffer} (h : GoesRound s t) (hv : s.2.Valid) :
    t.2.Valid ∧ t.2.size < s.2.size := by
  obtain ⟨h0, c, hc, -, ht⟩ := h
  have hsize := hv.size_retrieve c
  rw [ht]
  exact ⟨hv.retrieve c, by omega⟩

theorem acc_goesRound {s : HttpParser × Buffer} (hv : s.2.Valid) :
    Acc (fun t s => GoesRound s t) s := by
  induction hn : s.2.size using Nat.strong_induction_on generalizing s with
  | _ n ih =>
    refine .intro s fun t ht => ?_
    obtain ⟨htv, hlt⟩ := ht.size_lt hv
    exact ih t.2.size (hn ▸ hlt) htv rfl

theorem parse_again {p q : HttpParser} {b b' : Buffer} {k : Nat} (hb : b.Valid) (hp : Sound p)
    (h : p.parse b = .ok (q, b', k)) : q.parse b' = .ok (q, b', 0) := by
  obtain ⟨hv, -, -, -, hend, -⟩ := parse_spec hb hp h
  rcases hend with h0 | hstuck
  · exact parse_empty q h0
  · exact hstuck.parse hv

theorem parse_stopped {p : HttpParser} {b : Buffer} (hb : b.Valid)
    (h : p.state = .done ∨ p.state = .error) : p.parse b = .ok (p, b, 0) :=
  Stuck.parse hb (dispatch_stopped h b.window)

/-- **`parse` ends, drops what it reports and stands still after that.** The loop cannot go
round for ever, and the result does not depend on how many turns it is given. -/
theorem parse_progress [HeadMemory] {calls : List ParserCall} {ops : List BufOp} {p : HttpParser}
    {b : Buffer}
    (hp : parserMachine.run calls = some p) (hb : bufferMachine.run ops = some b) :
    Acc (fun t s => GoesRound s t) (p, b) ∧
    (∀ fuel, b.size ≤ fuel → parseLoop fuel p b = p.parse b) ∧
    (∀ q b' k, p.parse b = .ok (q, b', k) →
      b'.size + k = b.size ∧ b'.content = b.content.drop k ∧ q.parse b' = .ok (q, b', 0)) ∧
    (p.state = .done ∨ p.state = .error → p.parse b = .ok (p, b, 0)) := by
  have hs : Sound p := Machine.invariant sound_new kept_sound hp
  have hv := valid_of_run hb
  refine ⟨acc_goesRound hv, fun fuel hf => parseLoop_fuel hv hf (Nat.le_refl _),
    fun q b' k h => ?_, parse_stopped hv⟩
  obtain ⟨-, hcontent, hsize, -⟩ := parse_spec hv hs h
  exact ⟨hsize, hcontent, parse_again hv hs h⟩

/-- A request that is complete: the call takes it, and a second one takes nothing. -/
theorem parse_progress_get : ∃ q b', new.parse (Buffer.new.append
    (bytes "GET / HTTP/1.1\r\n\r\nGET")) = .ok (q, b', 18) ∧ q.state = .done ∧
    b'.content = bytes "GET" ∧ q.parse b' = .ok (q, b', 0) := by
  let text := bytes "GET / HTTP/1.1\r\n\r\nGET"
  have hb : bufferMachine.run [.append text] = some (Buffer.new.append text) := rfl
  have hp : parserMachine.run [] = some new := rfl
  obtain ⟨-, -, hspec, -⟩ := parse_progress hp hb
  have hrun : (new.parse (Buffer.new.append text)).toOption.map (fun r => (r.1.state, r.2.2)) =
    some (.done, 18) := by decide +kernel
  cases hr : new.parse (Buffer.new.append text) with
  | error e => rw [hr] at hrun; cases hrun
  | ok r =>
    obtain ⟨q, b', k⟩ := r
    rw [hr] at hrun
    obtain ⟨hstate, rfl⟩ := Prod.mk.inj (Option.some.inj hrun)
    obtain ⟨-, hcontent, hagain⟩ := hspec q b' 18 hr
    refine ⟨q, b', rfl, hstate, ?_, hagain⟩
    rw [hcontent, Buffer.valid_new.content_append, Buffer.content_new]
    decide

/-! ## The loop of `on_message` -/

variable {H : Type} {env : ServerEnv H}

/-- The loop of `on_message`, as it is written: it goes round `turns` times, and in the
turns that complete a request the parser gets to `DONE` as `entered` lists it. -/
inductive LoopRun (env : ServerEnv H) :
    Connection H → Nat → List HttpParser → Connection H × Exit → Prop where
  | empty {c : Connection H} (h0 : c.readBuf.size = 0) : LoopRun env c 0 [] (c, .loopEnd)
  | threw {c : Connection H} {e : Fault} (h0 : c.readBuf.size ≠ 0)
      (hr : c.parser.parse c.readBuf = .error e) : LoopRun env c 1 [] (c, .threw e)
  | bad {c : Connection H} {p : HttpParser} {buf : Buffer} {k : Nat} (h0 : c.readBuf.size ≠ 0)
      (hr : c.parser.parse c.readBuf = .ok (p, buf, k)) (he : p.state = .error) :
      LoopRun env c 1 [] (c.reject env p buf, .badRequest)
  | wait {c : Connection H} {p : HttpParser} {buf : Buffer} (h0 : c.readBuf.size ≠ 0)
      (hr : c.parser.parse c.readBuf = .ok (p, buf, 0)) (he : p.state ≠ .error)
      (hd : p.state ≠ .done) : LoopRun env c 1 [] (c.parsed p buf, .loopEnd)
  | done {c : Connection H} {p : HttpParser} {buf : Buffer} {k turns : Nat}
      {entered : List HttpParser} {r : Connection H × Exit} (h0 : c.readBuf.size ≠ 0)
      (hr : c.parser.parse c.readBuf = .ok (p, buf, k)) (hd : p.state = .done)
      (h : LoopRun env (c.complete env p buf) turns entered r) :
      LoopRun env c (turns + 1) (p :: entered) r
  | more {c : Connection H} {p : HttpParser} {buf : Buffer} {k turns : Nat}
      {entered : List HttpParser} {r : Connection H × Exit} (h0 : c.readBuf.size ≠ 0)
      (hr : c.parser.parse c.readBuf = .ok (p, buf, k)) (hk : k ≠ 0) (he : p.state ≠ .error)
      (hd : p.state ≠ .done) (h : LoopRun env (c.parsed p buf) turns entered r) :
      LoopRun env c (turns + 1) entered r

/-- The parser for which `handle_request` was called. -/
def Event.handledFor : Event H → Option HttpParser
  | .handle p _ _ => some p
  | _ => none

def Connection.handled (c : Connection H) : List HttpParser := c.log.filterMap Event.handledFor

theorem Connection.Grew.handled {c c' : Connection H} {new : List (Event H)} (h : Grew c c' new) :
    c'.handled = c.handled ++ new.filterMap Event.handledFor := by
  unfold Connection.handled
  rcases h with ⟨hlog, -⟩ | ⟨hlog, -⟩
  · rw [hlog, List.filterMap_append]
  · rw [hlog, List.filterMap_append, List.filterMap_append]
    exact List.append_nil _

/-- `handle_request` is called for the parsers that got to `DONE`, for each of them once. -/
theorem LoopRun.handled {c : Connection H} {turns : Nat} {entered : List HttpParser}
    {r : Connection H × Exit} (h : LoopRun env c turns entered r) :
    r.1.handled = c.handled ++ entered := by
  induction h with
  | empty | threw | wait => exact (List.append_nil _).symm
  | bad _ _ he => exact (grew_reject env _ he _).handled
  | done _ _ hd _ ih =>
    rw [ih, (grew_complete env _ hd _).handled, List.append_assoc]
    rfl
  | more _ _ _ _ _ _ ih => exact ih

/-- Nothing is left to do: neither `DONE` nor `ERROR`, and another call would change nothing. -/
structure Drained (c : Connection H) : Prop where
  not_done : c.parser.state ≠ .done
  not_error : c.parser.state ≠ .error
  idle : c.parser.parse c.readBuf = .ok (c.parser, c.readBuf, 0)

/-- **Every call of the loop comes to an end**, and leaves nothing to parse unless it ends in
an error. -/
theorem serve_loopRun (env : ServerEnv H) {c : Connection H} {fuel : Nat} (hv : c.readBuf.Valid)
    (hs : Sound c.parser) (hf : turnsLeft c < fuel) (hd : c.parser.state ≠ .done)
    (he : c.parser.state = .error → c.readBuf.size ≠ 0) :
    ∃ turns entered, LoopRun env c turns entered (c.serveLoop env fuel) ∧
      (c.serveLoop env fuel).2 ≠ .closedFirst ∧
      ((c.serveLoop env fuel).2 = .loopEnd → Drained (c.serveLoop env fuel).1) := by
  refine serve_induction (motive := fun c r => c.parser.state ≠ .done →
    (c.parser.state = .error → c.readBuf.size ≠ 0) → ∃ turns entered,
      LoopRun env c turns entered r ∧ r.2 ≠ .closedFirst ∧ (r.2 = .loopEnd → Drained r.1))
    ?empty ?threw ?bad ?wait ?done ?more hv hs hf hd he
  case empty =>
    intro c _ _ h0 hd he
    exact ⟨0, [], .empty h0, nofun, fun _ => ⟨hd, fun h => he h h0, parse_empty c.parser h0⟩⟩
  case threw => exact fun _ _ h0 hr _ _ => ⟨1, [], .threw h0 hr, nofun, nofun⟩
  case bad => exact fun _ _ h0 hr he _ _ => ⟨1, [], .bad h0 hr he, nofun, nofun⟩
  case wait =>
    intro c p buf hv hs h0 hr he hd _ _
    exact ⟨1, [], .wait h0 hr he hd, nofun, fun _ => ⟨hd, he, parse_again hv hs hr⟩⟩
  case done =>
    intro c p buf k r _ _ h0 hr hd ih _ _
    obtain ⟨turns, entered, hrun, hend⟩ := ih (by rw [parser_complete]; exact State.noConfusion)
      (by rw [parser_complete]; exact State.noConfusion)
    exact ⟨turns + 1, p :: entered, .done h0 hr hd hrun, hend⟩
  case more =>
    intro c p buf k r _ _ h0 hr hk he hd ih _ _
    obtain ⟨turns, entered, hrun, hend⟩ := ih hd fun h => absurd h he
    exact ⟨turns + 1, entered, .more h0 hr hk he hd hrun, hend⟩

/-- **`on_message` drains what it has read.** Whatever the parser and the buffer, unless
`parse` throws: the loop ends after finitely many turns, `handle_request` is called once for
each time the parser gets to `DONE`, and if the loop does not end in an error response the
parser is in neither state and another call of `parse` would consume and change nothing. -/
theorem on_message_drains [HeadMemory] (env : ServerEnv H) {c c' : Connection H} {exit : Exit}
    {bs : Bytes}
    {calls : List ParserCall} {ops : List BufOp} (hp : parserMachine.run calls = some c.parser)
    (hb : bufferMachine.run ops = some c.readBuf) (hd : c.parser.state ≠ .done)
    (hopen : c.closed = false) (hne : bs ≠ []) (hroom : bs.length ≤ c.readBuf.room)
    (hr : c.onMessage env (.data bs) = (c', exit)) (hthrow : ∀ e, exit ≠ .threw e) :
    ∃ turns entered, LoopRun env (c.received bs) turns entered (c', exit) ∧
      c'.handled = c.handled ++ entered ∧ (exit ≠ .badRequest → Drained c') := by
  have hv := valid_of_run hb
  have hs : Sound c.parser := Machine.invariant sound_new kept_sound hp
  have hv' : (c.received bs).readBuf.Valid := hv.writeVia hroom
  have hsize : (c.received bs).readBuf.size ≠ 0 := fun h0 => hne <| by
    have hnil := hv'.size_eq_zero_iff.mp h0
    rw [received, hv.content_writeVia hroom] at hnil
    exact (List.append_eq_nil_iff.mp hnil).2
  obtain ⟨turns, entered, hrun, hopened, hend⟩ :=
    serve_loopRun env hv' hs (turnsLeft_lt_serveFuel _) hd fun _ => hsize
  rw [← onMessage_data hv hopen hne, hr] at hrun hopened hend
  refine ⟨turns, entered, hrun, hrun.handled, fun hbad => hend ?_⟩
  cases exit with
  | loopEnd => rfl
  | badRequest => exact absurd rfl hbad
  | closedFirst => exact absurd rfl hopened
  | threw e => exact absurd rfl (hthrow e)

/-- Two requests in one read: both are handled, and nothing is left. -/
theorem on_message_drains_two : ∃ turns entered c', LoopRun idleEnv
    (({} : Connection Unit).received getTwice) turns entered (c', .loopEnd) ∧
    c'.handled = entered ∧ entered.length = 2 ∧ Drained c' := by
  have hexit : (({} : Connection Unit).onMessage idleEnv (.data getTwice)).2 = .loopEnd := by
    decide +kernel
  have htwo : (({} : Connection Unit).onMessage idleEnv (.data getTwice)).1.handled.length = 2 := by
    decide +kernel
  generalize hr : ({} : Connection Unit).onMessage idleEnv (.data getTwice) = r at hexit htwo
  obtain ⟨c', exit⟩ := r
  obtain rfl : exit = .loopEnd := hexit
  obtain ⟨turns, entered, hrun, hhandled, hend⟩ := on_message_drains idleEnv
    (show parserMachine.run [] = some _ from rfl) (show bufferMachine.run [] = some _ from rfl)
    (by decide) rfl (by decide) (by decide +kernel) hr nofun
  have hentered : c'.handled = entered := hhandled
  exact ⟨turns, entered, c', hrun, hentered, hentered ▸ htwo, hend nofun⟩

end Hound.Http
