import Hound.Http.ConnectionRuns
import Hound.Lib.Lists

/-!
# The response stream of a connection

`send_response` looks at whether `Socket::write` failed and not at the count it gives, and
`on_message` looks at neither. The bytes the socket has accepted are then whole responses in the
order of their requests, with at most a part of one more behind them (`InStep`), exactly as long as
no further request comes in after a response that was not accepted whole: `inStep_iff`.
-/

namespace Hound.Http

open Lib HttpParser

variable {H : Type} {env : ServerEnv H}

namespace Connection

/-- The responses given to `write`, each with what it returned. -/
def sends (log : List (Event H)) : List (Bytes × Option Nat) :=
  log.filterMap fun
    | .send raw result => some (raw, result)
    | _ => none

/-- What the socket accepts of a response: as many bytes as `write` counts, none on an error. -/
def taken (e : Bytes × Option Nat) : Bytes := e.1.take (e.2.getD 0)

/-- The bytes that the socket has accepted. -/
def accepted (log : List (Event H)) : Bytes := (sends log).flatMap taken

/-- Every request is answered in its turn. The bytes that the socket has accepted are whole
responses, the first ones, and at most a proper prefix of the next, and then this is the last one
that was sent. -/
structure InStep (log : List (Event H)) : Prop where
  answered : Answered log
  framed : ∃ whole rest, sends log = whole ++ rest ∧ (∀ e ∈ whole, taken e = e.1) ∧
    accepted log = whole.flatMap Prod.fst ++ rest.flatMap taken ∧
    (rest = [] ∨ ∃ e, rest = [e] ∧ taken e <+: e.1 ∧ taken e ≠ e.1)

/-- A response was not accepted whole. -/
def CutShort (c : Connection H) : Prop := ∃ e ∈ sends c.log, taken e ≠ e.1

/-- The socket does not take the response of this turn whole: the `send` fails, or comes up
short. -/
def Cuts (env : ServerEnv H) (c : Connection H) (p : HttpParser) : Prop :=
  taken (c.reply env p) ≠ (c.reply env p).1

/-- A read that comes to no request and no error behind a response that was cut short, whether that
was before it or in its own course. -/
def QuietWhenCut (c : Connection H) : ConnEvent H → Prop
  | .message env r => c.closed = false → ∀ bs, r = .data bs → bs ≠ [] →
    (c.CutShort → ¬ Answerable c.parser (c.received bs).readBuf) ∧
    (¬ c.CutShort → AllTurns env (LastWhen Cuts) (c.received bs))
  | .close => True

/-! ## One turn -/

def Ceases (log : List (Event H)) : Prop := (sends log).Pairwise fun a _ => taken a = a.1

theorem inStep_iff_ceases {log : List (Event H)} (h : Answered log) : InStep log ↔ Ceases log := by
  have hor : Ceases log ↔ (sends log).Pairwise fun a _ => taken a = a.1 ∨ False := by
    simp only [or_false]
    rfl
  rw [hor, pairwise_or_iff (q := fun _ => False)]
  constructor
  · rintro ⟨-, whole, rest, hsends, hwhole, -, hrest⟩
    refine ⟨whole, rest, hsends, hwhole, fun e more heq => ?_⟩
    rcases hrest with rfl | ⟨e', rfl, -, hne⟩
    · cases heq
    · cases heq
      exact ⟨hne, by simp⟩
  · rintro ⟨whole, rest, hsends, hwhole, hrest⟩
    refine ⟨h, whole, rest, hsends, hwhole, ?_, ?_⟩
    · rw [accepted, hsends, List.flatMap_append, List.flatMap_congr hwhole]
    · cases rest with
      | nil => exact .inl rfl
      | cons e more =>
        obtain ⟨hne, hnone⟩ := hrest e more rfl
        obtain rfl := List.eq_nil_iff_forall_not_mem.mpr hnone
        exact .inr ⟨e, rfl, List.take_prefix _ _, hne⟩

theorem sends_append (l l' : List (Event H)) : sends (l ++ l') = sends l ++ sends l' :=
  List.filterMap_append ..

theorem Grew.sends {c c' : Connection H} {new : List (Event H)} (h : Grew c c' new) :
    sends c'.log = sends c.log ++ sends new := by
  rcases h with ⟨hlog, -⟩ | ⟨hlog, -⟩
  · rw [hlog, sends_append]
  · rw [hlog, sends_append, sends_append]
    exact List.append_nil _

theorem sends_answer {c c' : Connection H} {p : HttpParser} {new : List (Event H)}
    (hnew : new = [] ∨ ∃ handler, new = [.handle p p.request handler])
    (hg : Grew c c' (new ++ [.send (c.reply env p).1 (c.reply env p).2])) :
    sends c'.log = sends c.log ++ [c.reply env p] := by
  rw [hg.sends]
  rcases hnew with rfl | ⟨handler, rfl⟩ <;> rfl

theorem ceases_law : TurnLaw (H := H) Ceases fun _ c _ => ¬ c.CutShort where
  nil := List.Pairwise.nil
  shrink h := by
    rw [Ceases, sends_append] at h
    exact (List.pairwise_append.mp h).1
  close {c} _ h := by
    rw [Ceases, (Grew.refl c).onClose.sends]
    exact (List.append_nil _).symm ▸ h
  answer {env c c' p new} _ hP _ hnew hg := by
    rw [Ceases, sends_answer hnew hg, List.pairwise_append, CutShort]
    push Not
    constructor
    · exact fun ⟨_, _, h⟩ e he => h e he _ (List.mem_singleton_self _)
    · exact fun h => ⟨hP, List.pairwise_singleton _ _, fun e he _ _ => h e he⟩

theorem cuts_law (env : ServerEnv H) : MarkLaw env CutShort Cuts where
  parsed _ _ _ := Iff.rfl
  complete c p hd buf := by
    have hsends := sends_answer (.inr ⟨_, rfl⟩) (grew_complete env c hd buf)
    simp only [CutShort, Cuts, hsends, List.mem_append, List.mem_singleton, or_and_right, exists_or,
      exists_eq_left]

end Connection

open Connection

/-! ## Runs -/

/-- **When the stream is in step**: exactly if no request and no error is found behind a response
that the socket did not take whole. -/
theorem inStep_iff [HeadMemory] {events : List (ConnEvent H)} {s : Connection H × Exit}
    (h : connMachine.run events = some s) :
    connMachine.Always (fun s => InStep s.1.log) events ↔
      connMachine.Each (fun s => QuietWhenCut s.1) events := by
  have hturns : connMachine.Each (fun s => EachTurn (fun _ c _ => ¬ c.CutShort) s.1) events ↔
      connMachine.Each (fun s => QuietWhenCut s.1) events := by
    refine Machine.each_congr (I := fun _ => True) trivial (fun _ _ => trivial) ?_ events
    intro s event _
    cases event with
    | close => exact Iff.rfl
    | message env r =>
      refine forall_congr' fun _ => forall_congr' fun bs => ?_
      refine forall_congr' fun _ => forall_congr' fun _ => ?_
      by_cases hcut : s.1.CutShort
      · rw [(cuts_law env).allTurns_marked (c := s.1.received bs) hcut]
        exact ⟨fun h => ⟨fun _ => h, fun hno => absurd hcut hno⟩, fun h => h.1 hcut⟩
      · rw [(cuts_law env).allTurns_unmarked (c := s.1.received bs) hcut]
        exact ⟨fun h => ⟨fun hyes => absurd hyes hcut, fun _ => h⟩, fun h => h.2 hcut⟩
  rw [← hturns, ← always_iff_turns ceases_law h]
  exact Machine.always_congr .accepted connMachine_kept
    (fun hs => inStep_iff_ceases hs.logged.answered) events

/-- A server whose peer is slow: the socket has room for five bytes each time. -/
def slowEnv : ServerEnv Unit := { idleEnv with send := fun _ _ => some 5 }

theorem slowRead_inStep_iff :
    connMachine.Always (fun s => InStep s.1.log) [.message slowEnv (.data getTwice)] ↔
      connMachine.Each (fun s => QuietWhenCut s.1) [.message slowEnv (.data getTwice)] :=
  inStep_iff (connMachine_run_read slowEnv (by decide +kernel))

/-- Two requests in one read: the socket accepts five bytes of the first response, and then
five bytes of the second. -/
theorem slowRead_not_inStep :
    ¬ connMachine.Always (fun s => InStep s.1.log) [.message slowEnv (.data getTwice)] := by
  intro h
  have hlog : InStep (({} : Connection Unit).onMessage slowEnv (.data getTwice)).1.log :=
    h.2 _ (connMachine_read slowEnv (by decide +kernel))
  have hceases := (inStep_iff_ceases hlog.answered).mp hlog
  revert hceases
  unfold Ceases
  decide +kernel

end Hound.Http
