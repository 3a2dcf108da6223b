import Hound.Http.ConnectionRuns

/-!
# A closed connection

Nothing but the erase should come after `on_close`. `on_message` looks at `closed` when it
is entered and not again: after `handle_request` has closed the connection, the loop goes on
with the rest of `read_buf`. `silent_iff` says for which reads nothing is there to go
on with: none that holds, behind the request whose turn closed the connection, another
complete request or an error (`Answerable`).
-/

namespace Hound.Http

open Lib HttpParser

variable {H : Type} {env : ServerEnv H}

namespace Connection

/-- After a `close`, no handler is called and nothing is sent. -/
def Silent (log : List (Event H)) : Prop := log.Pairwise fun a b => a = .close → b = .close

theorem handle_ne_close (p : HttpParser) (req : HttpRequest) (handler : Option H) :
    Event.handle p req handler ≠ .close := nofun

theorem send_ne_close (raw : Bytes) (result : Option Nat) :
    (Event.send raw result : Event H) ≠ .close := nofun

instance : ∀ e : Event H, Decidable (e = .close)
  | .handle p req handler => .isFalse (handle_ne_close p req handler)
  | .send raw result => .isFalse (send_ne_close raw result)
  | .close => .isTrue rfl

instance (log : List (Event H)) : Decidable (Silent log) :=
  inferInstanceAs (Decidable (log.Pairwise _))

/-- The turn that completes the request of `p` closes the connection: the response cannot be
sent, or the client asked for it. -/
def Closes (env : ServerEnv H) (c : Connection H) (p : HttpParser) : Prop :=
  (c.reply env p).2 = none ∨ p.request.keepAlive = false

/-- Behind a request whose turn closes the connection, nothing is left to answer. -/
def LastRequest (env : ServerEnv H) (c : Connection H) (p : HttpParser) : Prop :=
  p.state = .done → c.Closes env p →
    ∀ buf k, c.parser.parse c.readBuf = .ok (p, buf, k) → ¬ Answerable .new buf

/-! ## The turn that closes -/

theorem closed_sendResponse (env : ServerEnv H) (c : Connection H) (resp : HttpResponse) :
    (c.sendResponse env resp).closed = true ↔
      c.closed = true ∨ env.send c.turn (resp.serialize env.order) = none := by
  unfold sendResponse
  simp only
  split
  · next h => exact iff_of_true (closed_onClose _) (.inr h)
  · next h => simp [h, Connection.record]

theorem closed_complete (c : Connection H) {p : HttpParser} (hd : p.state = .done) (buf : Buffer) :
    (c.complete env p buf).closed = true ↔ c.closed = true ∨ c.Closes env p := by
  have hsend := closed_sendResponse env
    ((c.parsed p buf).record (.handle p p.request (c.respond env p.request).1))
    ((c.respond env p.request).2.setKeepAlive p.request.keepAlive)
  rw [turn_record] at hsend
  rw [Closes, reply, if_neg (by rw [hd]; decide)]
  unfold complete handleRequest
  simp only
  split
  · next hkeep =>
    have hkeep : p.request.keepAlive ≠ false := Bool.eq_false_iff.not.mpr (not_not.mpr hkeep)
    rw [or_iff_left hkeep]
    exact hsend
  · next hkeep =>
    have hkeep : p.request.keepAlive = false := Bool.eq_false_iff.mpr hkeep
    exact iff_of_true (closed_onClose _) (.inr (.inr hkeep))

theorem closes_law (env : ServerEnv H) :
    MarkLaw env (fun c : Connection H => c.closed = true) Closes where
  parsed _ _ _ := Iff.rfl
  complete c _ hd buf := closed_complete c hd buf

/-- An open connection has only open turns exactly if no closing turn leaves anything behind. -/
theorem allTurns_open_iff {c : Connection H} (hopen : c.closed = false) :
    AllTurns env (fun _ d _ => d.closed = false) c ↔ AllTurns env LastRequest c := by
  simp only [← Bool.not_eq_true]
  exact (closes_law env).allTurns_unmarked (by simp [hopen])

/-! ## Runs -/

theorem silent_append {log new : List (Event H)} (hlog : Silent log) :
    Silent (log ++ new) ↔ Silent new ∧ ((∃ e ∈ log, e = .close) → ∀ e ∈ new, e = .close) := by
  rw [Silent, List.pairwise_append]
  constructor
  · intro ⟨_, hnew, h⟩
    exact ⟨hnew, fun ⟨e, he, hc⟩ e' he' => h e he e' he' hc⟩
  · intro ⟨hnew, h⟩
    exact ⟨hlog, hnew, fun e he e' he' hc => h ⟨e, he, hc⟩ e' he'⟩

/-- A turn keeps the silence exactly if it begins before the close. -/
theorem silent_law : TurnLaw (H := H) Silent fun _ c _ => c.closed = false where
  nil := List.Pairwise.nil
  shrink h := (List.pairwise_append.mp h).1
  close {c} _ h := by
    unfold onClose
    split
    · exact h
    · exact (silent_append h).mpr ⟨List.pairwise_singleton _ _, by simp⟩
  answer {env c c' p new} hl hP _ hnew hg := by
    have hquiet : Silent (new ++ [.send (c.reply env p).1 (c.reply env p).2]) := by
      rcases hnew with rfl | ⟨handler, rfl⟩ <;> simp [Silent]
    have hbefore : Silent (c.log ++ (new ++ [.send (c.reply env p).1 (c.reply env p).2])) ↔
        c.closed = false := by
      rw [silent_append hP, ← hl.closed_iff, ← Bool.not_eq_true]
      constructor
      · intro ⟨_, h⟩ hclosed
        have hsend := h hclosed (.send (c.reply env p).1 (c.reply env p).2) (by simp)
        cases hsend
      · intro hopen
        exact ⟨hquiet, fun hclosed => absurd hclosed hopen⟩
    rcases hg with ⟨hlog, -⟩ | ⟨hlog, hopen, -⟩
    · rw [hlog]
      exact hbefore
    · refine iff_of_true ?_ hopen
      rw [hlog]
      exact (silent_append (hbefore.mpr hopen)).mpr ⟨List.pairwise_singleton _ _, by simp⟩

end Connection

open Connection

/-- **A closed connection is silent exactly if no read goes on behind the request that
closed it.** -/
theorem silent_iff [HeadMemory] {events : List (ConnEvent H)} {s : Connection H × Exit}
    (h : connMachine.run events = some s) :
    connMachine.Always (fun s => Silent s.1.log) events ↔
      connMachine.Each (fun s => EachTurn LastRequest s.1) events := by
  rw [always_iff_turns silent_law h]
  refine Machine.each_congr (I := fun _ => True) trivial (fun _ _ => trivial) ?_ events
  intro s event _
  cases event with
  | close => exact Iff.rfl
  | message env r =>
    refine forall_congr' fun hopen => forall_congr' fun bs => ?_
    exact forall_congr' fun _ => forall_congr' fun _ => allTurns_open_iff hopen

def resetEnv : ServerEnv Unit := { idleEnv with send := fun _ _ => none }

theorem oneRead_silent_iff :
    connMachine.Always (fun s => Silent s.1.log)
        [.message resetEnv (.data (getTwice.take 18))] ↔
      connMachine.Each (fun s => EachTurn LastRequest s.1)
        [.message resetEnv (.data (getTwice.take 18))] :=
  silent_iff (connMachine_run_read resetEnv (by decide +kernel))

/-- Two requests in one read: the first response cannot be sent, and the second request is
handled and answered all the same. -/
theorem pipelined_not_silent :
    ¬ connMachine.Always (fun s => Silent s.1.log) [.message resetEnv (.data getTwice)] := by
  intro h
  have hlog : Silent (({} : Connection Unit).onMessage resetEnv (.data getTwice)).1.log :=
    h.2 _ (connMachine_read resetEnv (by decide +kernel))
  revert hlog
  decide +kernel

end Hound.Http
