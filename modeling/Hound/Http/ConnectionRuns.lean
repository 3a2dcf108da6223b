import Hound.Http.ServeLoop
import Hound.Lib.Machine

/-!
# Runs of one connection

`connMachine` is a connection from `on_accept` to its erase under any reads and closes,
each with its own outside. A turn of the loop of `on_message` that completes a request or finds
an error `Answers`: it sends one response (`reply`), and it may close the connection, so
its log is `Answered`. `always_iff_turns`: what every answering turn keeps exactly under a
condition on the state it begins in holds along a whole run exactly when every turn
meets the condition.
-/

namespace Hound.Http

open Lib HttpParser

variable {H : Type} {env : ServerEnv H}

namespace Connection

/-! ## Turns -/

/-- The turn that begins in `c` completes a request or finds an error, with the parser `p`. -/
def Answers (c : Connection H) (p : HttpParser) : Prop :=
  c.readBuf.size ≠ 0 ∧ (p.state = .error ∨ p.state = .done) ∧
    ∃ buf k, c.parser.parse c.readBuf = .ok (p, buf, k)

/-- The response that this turn sends, and what `send` returns for it. -/
def reply (env : ServerEnv H) (c : Connection H) (p : HttpParser) : Bytes × Option Nat :=
  if p.state = .error then
    let raw := (HttpResponse.notFound (bytes "400 Bad Request")).serialize env.order
    (raw, env.send c.turn raw)
  else
    let (_, resp) := c.respond env p.request
    let raw := (resp.setKeepAlive p.request.keepAlive).serialize env.order
    (raw, env.send (c.turn + 1) raw)

/-- The connections that turns of the loop from `c` begin in. -/
inductive Turns (env : ServerEnv H) : Connection H → Connection H → Prop where
  | here (c : Connection H) : Turns env c c
  | done {c d : Connection H} {p : HttpParser} {buf : Buffer} {k : Nat}
      (h0 : c.readBuf.size ≠ 0) (hr : c.parser.parse c.readBuf = .ok (p, buf, k))
      (hd : p.state = .done) (h : Turns env (c.complete env p buf) d) : Turns env c d
  | more {c d : Connection H} {p : HttpParser} {buf : Buffer} {k : Nat}
      (h0 : c.readBuf.size ≠ 0) (hr : c.parser.parse c.readBuf = .ok (p, buf, k)) (hk : k ≠ 0)
      (he : p.state ≠ .error) (hd : p.state ≠ .done) (h : Turns env (c.parsed p buf) d) :
      Turns env c d

theorem Turns.trans {c d e : Connection H} (h : Turns env c d) (h' : Turns env d e) :
    Turns env c e := by
  induction h with
  | here => exact h'
  | done h0 hr hd _ ih => exact .done h0 hr hd (ih h')
  | more h0 hr hk he hd _ ih => exact .more h0 hr hk he hd (ih h')

/-- Turn after turn of the loop, the parser comes to a complete request or to an error. -/
inductive Answerable : HttpParser → Buffer → Prop where
  | now {p q : HttpParser} {b buf : Buffer} {k : Nat} (h0 : b.size ≠ 0)
      (hr : p.parse b = .ok (q, buf, k)) (hq : q.state = .error ∨ q.state = .done) :
      Answerable p b
  | later {p q : HttpParser} {b buf : Buffer} {k : Nat} (h0 : b.size ≠ 0)
      (hr : p.parse b = .ok (q, buf, k)) (hk : k ≠ 0) (he : q.state ≠ .error)
      (hd : q.state ≠ .done) (h : Answerable q buf) : Answerable p b

theorem Turns.answerable {c d : Connection H} {p : HttpParser} (h : Turns env c d)
    (ha : d.Answers p) : Answerable c.parser c.readBuf := by
  induction h with
  | here =>
    obtain ⟨h0, hp, buf, k, hr⟩ := ha
    exact .now h0 hr hp
  | done h0 hr hd => exact .now h0 hr (.inr hd)
  | more h0 hr hk he hd _ ih => exact .later h0 hr hk he hd (ih ha)

/-- What is answerable is answered, and until then only parser and buffer change. -/
theorem Answerable.turns (env : ServerEnv H) {p : HttpParser} {b : Buffer}
    (h : Answerable p b) {c : Connection H} (hp : c.parser = p) (hb : c.readBuf = b) :
    ∃ q buf, Turns env c (c.parsed q buf) ∧ ∃ q', (c.parsed q buf).Answers q' := by
  induction h generalizing c with
  | now h0 hr hq =>
    subst hp hb
    exact ⟨c.parser, c.readBuf, .here c, _, h0, hq, _, _, hr⟩
  | @later p q b buf k h0 hr hk he hd _ ih =>
    subst hp hb
    obtain ⟨q', buf', hturns, ha⟩ := ih (c := c.parsed q buf) rfl rfl
    exact ⟨q', buf', .more h0 hr hk he hd hturns, ha⟩

/-! ## What a turn leaves in the log -/

/-- From `c` to `c'` the log grew by `new`, with a `close` behind it exactly if the
connection was open and is closed now. -/
def Grew (c c' : Connection H) (new : List (Event H)) : Prop :=
  (c'.log = c.log ++ new ∧ c'.closed = c.closed) ∨
    (c'.log = c.log ++ new ++ [.close] ∧ c.closed = false ∧ c'.closed = true)

theorem Grew.refl (c : Connection H) : Grew c c [] :=
  .inl ⟨(List.append_nil _).symm, rfl⟩

theorem Grew.onClose {c c' : Connection H} {new : List (Event H)} (h : Grew c c' new) :
    Grew c c'.onClose new := by
  unfold Connection.onClose
  split
  · exact h
  · next hopen =>
    rcases h with ⟨hlog, hclosed⟩ | ⟨-, -, hclosed⟩
    · refine .inr ⟨by rw [← hlog]; rfl, ?_, rfl⟩
      rw [← hclosed]
      exact Bool.eq_false_iff.mpr hopen
    · exact absurd hclosed hopen

theorem Grew.record {c c' : Connection H} {e : Event H} {new : List (Event H)}
    (h : Grew (c.record e) c' new) : Grew c c' (e :: new) := by
  rcases h with ⟨hlog, hclosed⟩ | ⟨hlog, hclosed⟩
  · exact .inl ⟨by rw [hlog, Connection.record, List.append_assoc]; rfl, hclosed⟩
  · refine .inr ⟨?_, hclosed⟩
    rw [hlog, Connection.record, List.append_assoc c.log]
    rfl

theorem grew_sendResponse (env : ServerEnv H) (c : Connection H) (resp : HttpResponse) :
    Grew c (c.sendResponse env resp)
      [.send (resp.serialize env.order) (env.send c.turn (resp.serialize env.order))] := by
  have h : Grew c (c.record (.send (resp.serialize env.order)
      (env.send c.turn (resp.serialize env.order)))) _ := .inl ⟨rfl, rfl⟩
  unfold sendResponse
  simp only
  split
  · exact h.onClose
  · exact h

theorem grew_reject (env : ServerEnv H) (c : Connection H) {p : HttpParser}
    (he : p.state = .error) (buf : Buffer) :
    Grew c (c.reject env p buf) [.send (c.reply env p).1 (c.reply env p).2] := by
  rw [reply, if_pos he]
  exact (grew_sendResponse env (c.parsed p buf) _).onClose

/-- A turn that completed a request handles it and sends the response. -/
theorem grew_complete (env : ServerEnv H) (c : Connection H) {p : HttpParser}
    (hd : p.state = .done) (buf : Buffer) :
    Grew c (c.complete env p buf)
      [.handle p p.request (c.respond env p.request).1,
        .send (c.reply env p).1 (c.reply env p).2] := by
  have hnew := (grew_sendResponse env
    ((c.parsed p buf).record (.handle p p.request (c.respond env p.request).1))
    ((c.respond env p.request).2.setKeepAlive p.request.keepAlive)).record
  rw [turn_record] at hnew
  rw [reply, if_neg (by rw [hd]; decide)]
  unfold complete handleRequest
  simp only
  split
  · exact hnew
  · exact hnew.onClose

/-- A request that is handled is answered before anything else happens, and every
response is written as `serialize` gives it. -/
inductive Answered : List (Event H) → Prop where
  | nil : Answered []
  | handled {log : List (Event H)} (h : Answered log) (p : HttpParser) (req : HttpRequest)
      (handler : Option H) (resp : HttpResponse) (order : HeaderOrder) (result : Option Nat) :
      Answered (log ++ [.handle p req handler,
        .send ((resp.setKeepAlive req.keepAlive).serialize order) result])
  | rejected {log : List (Event H)} (h : Answered log) (order : HeaderOrder)
      (result : Option Nat) :
      Answered (log ++ [.send ((HttpResponse.notFound (bytes "400 Bad Request")).serialize order)
        result])
  | closed {log : List (Event H)} (h : Answered log) : Answered (log ++ [.close])

theorem Answered.grew {c c' : Connection H} {new : List (Event H)} (h : Answered (c.log ++ new))
    (hg : Grew c c' new) : Answered c'.log := by
  rcases hg with ⟨hlog, -⟩ | ⟨hlog, -⟩
  · rw [hlog]
    exact h
  · rw [hlog]
    exact h.closed

/-! ## What all turns keep -/

/-- `closed` is set by the `close` in the log. -/
structure Logged (c : Connection H) : Prop where
  closed_iff : c.closed = true ↔ ∃ e ∈ c.log, e = .close
  answered : Answered c.log

/-- `Good` holds of every answering turn of the loop from `c`. -/
def AllTurns (env : ServerEnv H) (Good : ServerEnv H → Connection H → HttpParser → Prop)
    (c : Connection H) : Prop := ∀ d p, Turns env c d → d.Answers p → Good env d p

/-- `P` is a property of logs that an answering turn keeps exactly if it is `Good`. -/
structure TurnLaw (P : List (Event H) → Prop)
    (Good : ServerEnv H → Connection H → HttpParser → Prop) : Prop where
  nil : P []
  shrink : ∀ {l new}, P (l ++ new) → P l
  close : ∀ {c : Connection H}, c.Logged → P c.log → P c.onClose.log
  answer : ∀ {env} {c c' : Connection H} {p new}, c.Logged → P c.log → c.Answers p →
    (new = [] ∨ ∃ handler, new = [.handle p p.request handler]) →
    Grew c c' (new ++ [.send (c.reply env p).1 (c.reply env p).2]) → (P c'.log ↔ Good env c p)

section Turns

variable {Good : ServerEnv H → Connection H → HttpParser → Prop} {c : Connection H}
  {p : HttpParser} {buf : Buffer} {k : Nat}

/-- Whatever turn is looked at, it began with this call of `parse`. -/
theorem allTurns_cons (h0 : c.readBuf.size ≠ 0)
    (hr : c.parser.parse c.readBuf = .ok (p, buf, k)) :
    AllTurns env Good c ↔
      (p.state = .error ∨ p.state = .done → Good env c p) ∧
      (p.state = .done → AllTurns env Good (c.complete env p buf)) ∧
      (p.state ≠ .error → p.state ≠ .done → k ≠ 0 → AllTurns env Good (c.parsed p buf)) := by
  constructor
  · intro h
    refine ⟨fun hp => h c p (.here c) ⟨h0, hp, buf, k, hr⟩, ?_, ?_⟩
    · exact fun hd d q hq ha => h d q (.done h0 hr hd hq) ha
    · exact fun he hd hk d q hq ha => h d q (.more h0 hr hk he hd hq) ha
  · rintro ⟨hhere, hdone, hmore⟩ d q hq ha
    cases hq with
    | here =>
      obtain ⟨-, hp, buf', k', hr'⟩ := ha
      rw [hr] at hr'
      cases hr'
      exact hhere hp
    | done _ hr' hd hq =>
      rw [hr] at hr'
      cases hr'
      exact hdone hd d q hq ha
    | more _ hr' hk he hd hq =>
      rw [hr] at hr'
      cases hr'
      exact hmore he hd hk d q hq ha

theorem allTurns_of_not_ok (h : c.readBuf.size = 0 ∨ ∃ e, c.parser.parse c.readBuf = .error e) :
    AllTurns env Good c := by
  have hno (h0 : c.readBuf.size ≠ 0) {a : HttpParser × Buffer × Nat}
      (hr : c.parser.parse c.readBuf = .ok a) : False := by
    rcases h with h | ⟨e, h⟩
    · exact h0 h
    · rw [h] at hr
      cases hr
  intro d q hq ha
  cases hq with
  | here =>
    obtain ⟨h0, -, buf, k, hr⟩ := ha
    exact (hno h0 hr).elim
  | done h0 hr => exact (hno h0 hr).elim
  | more h0 hr => exact (hno h0 hr).elim

/-- Behind a request whose turn `Marks` the connection, nothing is left to answer. -/
def LastWhen (Marks : ServerEnv H → Connection H → HttpParser → Prop) (env : ServerEnv H)
    (c : Connection H) (p : HttpParser) : Prop :=
  p.state = .done → Marks env c p →
    ∀ buf k, c.parser.parse c.readBuf = .ok (p, buf, k) → ¬ Answerable .new buf

/-- A mark that turns put on a connection, and nothing else in the loop. -/
structure MarkLaw (env : ServerEnv H) (Marked : Connection H → Prop)
    (Marks : ServerEnv H → Connection H → HttpParser → Prop) : Prop where
  parsed : ∀ c p buf, Marked (Connection.parsed c p buf) ↔ Marked c
  complete : ∀ c {p}, p.state = .done → ∀ buf,
    (Marked (Connection.complete env c p buf) ↔ Marked c ∨ Marks env c p)

section Marks

variable {Marked : Connection H → Prop} {Marks : ServerEnv H → Connection H → HttpParser → Prop}

/-- A marked connection answers nothing exactly if there is nothing to answer. -/
theorem MarkLaw.allTurns_marked (law : MarkLaw env Marked Marks) (hc : Marked c) :
    AllTurns env (fun _ d _ => ¬ Marked d) c ↔ ¬ Answerable c.parser c.readBuf := by
  constructor
  · intro h hrest
    obtain ⟨q, buf, hturns, q', ha⟩ := hrest.turns env rfl rfl
    exact h _ q' hturns ha ((law.parsed c q buf).mpr hc)
  · exact fun h d p hturns ha => absurd (hturns.answerable ha) h

/-- An unmarked one has only unmarked turns exactly if no turn that marks it leaves anything
behind. -/
theorem MarkLaw.allTurns_unmarked (law : MarkLaw env Marked Marks) (hc : ¬ Marked c) :
    AllTurns env (fun _ d _ => ¬ Marked d) c ↔ AllTurns env (LastWhen Marks) c := by
  constructor
  · intro h d p hturns ha hd hmarks buf k hr hrest
    obtain ⟨q, buf', hturns', q', ha'⟩ := hrest.turns env (parser_complete d p buf)
      (complete_readBuf d p buf)
    refine h _ q' (hturns.trans (.done ha.1 hr hd hturns')) ha' ?_
    exact (law.parsed _ q buf').mpr ((law.complete d hd buf).mpr (.inr hmarks))
  · intro h d q hturns ha
    induction hturns with
    | here => exact hc
    | @done c d p buf k h0 hr hd hturns ih =>
      refine ih ?_ (fun d' q' ht => h d' q' (.done h0 hr hd ht)) ha
      rintro hmarked
      rcases (law.complete c hd buf).mp hmarked with hmarked | hmarks
      · exact hc hmarked
      · refine h c p (.here c) ⟨h0, .inr hd, buf, k, hr⟩ hd hmarks buf k hr ?_
        have hrest := hturns.answerable ha
        rw [parser_complete, complete_readBuf] at hrest
        exact hrest
    | @more c d p buf k h0 hr hk he hd _ ih =>
      exact ih (mt (law.parsed c p buf).mp hc)
        (fun d' q' ht => h d' q' (.more h0 hr hk he hd ht)) ha

end Marks

theorem Logged.grew {c' : Connection H} {new : List (Event H)} (h : c.Logged)
    (hnew : ∀ e ∈ new, e ≠ .close) (hans : Answered (c.log ++ new)) (hg : Grew c c' new) :
    c'.Logged := by
  refine ⟨?_, hans.grew hg⟩
  rcases hg with ⟨hlog, hclosed⟩ | ⟨hlog, -, hclosed⟩
  · rw [hlog, hclosed]
    apply Iff.trans h.closed_iff
    constructor
    · intro ⟨e, he, hc⟩
      exact ⟨e, List.mem_append_left _ he, hc⟩
    · intro ⟨e, he, hc⟩
      rcases List.mem_append.mp he with he | he
      · exact ⟨e, he, hc⟩
      · exact absurd hc (hnew e he)
  · exact iff_of_true hclosed ⟨.close, by simp [hlog], rfl⟩

theorem Logged.complete (h : c.Logged) (hd : p.state = .done) :
    (c.complete env p buf).Logged := by
  refine h.grew (by simp) ?_ (grew_complete env c hd buf)
  rw [reply, if_neg (by rw [hd]; decide)]
  exact h.answered.handled p p.request _ _ _ _

theorem Logged.reject (h : c.Logged) (he : p.state = .error) :
    (c.reject env p buf).Logged := by
  refine h.grew (by simp) ?_ (grew_reject env c he buf)
  rw [reply, if_pos he]
  exact h.answered.rejected _ _

theorem Logged.onClose (h : c.Logged) : c.onClose.Logged :=
  h.grew (by simp) (by rw [List.append_nil]; exact h.answered)
    (Grew.refl c).onClose

theorem Grew.extends {c' : Connection H} {new : List (Event H)} (h : Grew c c' new) :
    ∃ more, c'.log = c.log ++ more := by
  rcases h with ⟨h, -⟩ | ⟨h, -⟩
  · exact ⟨_, h⟩
  · exact ⟨_, h.trans (List.append_assoc ..)⟩

/-- **The loop keeps `P` exactly if every turn is good.** -/
theorem serve_iff {P : List (Event H) → Prop} (law : TurnLaw P Good) (env : ServerEnv H)
    {fuel : Nat} (hv : c.readBuf.Valid) (hs : Sound c.parser) (hf : turnsLeft c < fuel)
    (hl : c.Logged) :
    (P (c.serveLoop env fuel).1.log → P c.log) ∧
      (P c.log → (P (c.serveLoop env fuel).1.log ↔ AllTurns env Good c)) := by
  refine serve_induction (motive := fun c r => c.Logged → (P r.1.log → P c.log) ∧
    (P c.log → (P r.1.log ↔ AllTurns env Good c)))
    ?empty ?threw ?bad ?wait ?done ?more hv hs hf hl
  case empty =>
    intro c _ _ h0 _
    exact ⟨id, fun hP => iff_of_true hP (allTurns_of_not_ok (.inl h0))⟩
  case threw =>
    intro c e _ _ _ hr _
    exact ⟨id, fun hP => iff_of_true hP (allTurns_of_not_ok (.inr ⟨e, hr⟩))⟩
  case bad =>
    intro c p buf k _ _ h0 hr he hl
    have hg := grew_reject env c he buf
    obtain ⟨more, hlog⟩ := hg.extends
    refine ⟨fun hP => law.shrink (hlog ▸ hP), fun hP => ?_⟩
    rw [law.answer hl hP ⟨h0, .inl he, buf, k, hr⟩ (.inl rfl) hg, allTurns_cons h0 hr]
    simp [he]
  case wait =>
    intro c p buf _ _ h0 hr he hd _
    refine ⟨id, fun hP => iff_of_true hP ?_⟩
    rw [allTurns_cons h0 hr]
    simp [he, hd]
  case done =>
    intro c p buf k r _ _ h0 hr hd ih hl
    have hg := grew_complete env c hd buf
    obtain ⟨more, hlog⟩ := hg.extends
    obtain ⟨hshrink, hiff⟩ := ih (hl.complete hd)
    refine ⟨fun hP => law.shrink (hlog ▸ hshrink hP), fun hP => ?_⟩
    have hgood : P (c.complete env p buf).log ↔ Good env c p :=
      law.answer hl hP ⟨h0, .inr hd, buf, k, hr⟩ (.inr ⟨_, rfl⟩) hg
    rw [allTurns_cons h0 hr]
    constructor
    · intro hr'
      have hP' := hshrink hr'
      exact ⟨fun _ => hgood.mp hP', fun _ => (hiff hP').mp hr', fun _ hd' => absurd hd hd'⟩
    · rintro ⟨hg', hall, -⟩
      exact (hiff (hgood.mpr (hg' (.inr hd)))).mpr (hall hd)
  case more =>
    intro c p buf k r _ _ h0 hr hk he hd ih hl
    obtain ⟨hshrink, hiff⟩ := ih ⟨hl.closed_iff, hl.answered⟩
    refine ⟨hshrink, fun hP => ?_⟩
    rw [hiff hP, allTurns_cons h0 hr]
    simp [he, hd, hk]

end Turns

end Connection

open Connection

/-! ## Runs -/

/-- What the loop needs of a connection and keeps. -/
structure Connection.Ready (c : Connection H) : Prop where
  logged : c.Logged
  valid : c.readBuf.Valid
  sound : Sound c.parser

theorem serve_ready {c : Connection H} (env : ServerEnv H) {fuel : Nat} (hc : c.Ready)
    (hf : turnsLeft c < fuel) : (c.serveLoop env fuel).1.Ready := by
  refine serve_induction (motive := fun c r => c.Logged → r.1.Ready)
    ?empty ?threw ?bad ?wait ?done ?more hc.valid hc.sound hf hc.logged
  case empty => exact fun hv hs _ hl => ⟨hl, hv, hs⟩
  case threw => exact fun hv hs _ _ hl => ⟨hl, hv, hs⟩
  case bad =>
    intro c p buf k hv hs _ hr he hl
    obtain ⟨hv', -, -, hs', -⟩ := parse_spec hv hs hr
    refine ⟨hl.reject he, ?_, ?_⟩
    · rw [reject_readBuf]
      exact hv'
    · rw [parser_reject]
      exact hs'
  case wait =>
    intro c p buf hv hs _ hr _ _ hl
    obtain ⟨hv', -, -, hs', -⟩ := parse_spec hv hs hr
    exact ⟨⟨hl.closed_iff, hl.answered⟩, hv', hs'⟩
  case done => exact fun _ _ _ _ hd ih hl => ih (hl.complete hd)
  case more => exact fun _ _ _ _ _ _ _ ih hl => ih ⟨hl.closed_iff, hl.answered⟩

/-- What can happen to a connection before its erase. -/
inductive ConnEvent (H : Type) where
  | message (env : ServerEnv H) (r : ReadOutcome)
  /-- The close or error callback, or the timeout. -/
  | close

/-- A read returns no more than it was given room for. -/
def ReadOutcome.Fits : ReadOutcome → Buffer → Prop
  | .fail, _ => True
  | .data bs, b => bs.length ≤ b.room

instance ReadOutcome.decidableFits : ∀ (r : ReadOutcome) (b : Buffer), Decidable (r.Fits b)
  | .fail, _ => .isTrue trivial
  | .data _, _ => inferInstanceAs (Decidable (_ ≤ _))

/-- A connection from its accept on, with how the last event ended. An exception out of
`parse` leaves the loop of the program, and nothing comes after it. -/
def connMachine [HeadMemory] : Machine (Connection H × Exit) (ConnEvent H) where
  init := ({}, .loopEnd)
  step
    | (_, .threw _), _ => none
    | (c, _), .message env r => if r.Fits c.readBuf then some (c.onMessage env r) else none
    | (c, _), .close => some (c.onClose, .closedFirst)

/-- Two requests, sent without waiting for the first response. -/
def getTwice : Bytes := bytes "GET / HTTP/1.1\r\n\r\nGET / HTTP/1.1\r\n\r\n"

theorem connMachine_read [HeadMemory] (env : ServerEnv H) {bs : Bytes}
    (hroom : bs.length ≤ ({} : Connection H).readBuf.room) :
    connMachine.step ({}, .loopEnd) (.message env (.data bs)) =
      some (({} : Connection H).onMessage env (.data bs)) := if_pos hroom

theorem connMachine_run_read [HeadMemory] (env : ServerEnv H) {bs : Bytes}
    (hroom : bs.length ≤ ({} : Connection H).readBuf.room) :
    connMachine.run [.message env (.data bs)] =
      some (({} : Connection H).onMessage env (.data bs)) := by
  unfold Machine.run Machine.runFrom
  exact congrArg (Option.bind · _) (connMachine_read env hroom)

/-- `Good` holds of every answering turn of the call of `on_message`. -/
def EachTurn (Good : ServerEnv H → Connection H → HttpParser → Prop) (c : Connection H) :
    ConnEvent H → Prop
  | .message env r => c.closed = false → ∀ bs, r = .data bs → bs ≠ [] →
    AllTurns env Good (c.received bs)
  | .close => True

/-- While it is open, a connection is fit for the loop. -/
structure Connection.Inv (c : Connection H) : Prop where
  logged : c.Logged
  ready : c.closed = false → c.Ready

variable {c c' : Connection H}

theorem Connection.Inv.onClose (hl : c.Logged) : c.onClose.Inv :=
  ⟨hl.onClose, fun h => by rw [closed_onClose] at h; cases h⟩

theorem onMessage_closed (hclosed : c.closed = true) (r : ReadOutcome) :
    (c.onMessage env r).1 = c := by
  unfold onMessage
  rw [if_pos hclosed]

theorem onMessage_nothing (hopen : c.closed = false) {r : ReadOutcome}
    (hr : ∀ bs, r = .data bs → bs = []) :
    (c.onMessage env r).1 = Connection.onClose { c with readBuf := c.readBuf.beginWrite.1 } := by
  unfold onMessage
  rw [if_neg (by rw [hopen]; exact Bool.false_ne_true)]
  simp only
  split
  · rfl
  · cases r with
    | fail => rfl
    | data bs => rw [hr bs rfl]

/-- What a call of `on_message` can be: it finds the connection closed, it closes it, or it runs
the loop over the buffer with the bytes read. -/
theorem onMessage_cases (hc : c.Inv) {r : ReadOutcome} (hfit : r.Fits c.readBuf)
    {motive : Connection H → Prop} (closed : c.closed = true → motive c)
    (nothing : c.closed = false → (∀ bs, r = .data bs → bs = []) →
      motive (Connection.onClose { c with readBuf := c.readBuf.beginWrite.1 }))
    (loop : ∀ bs, r = .data bs → c.closed = false → bs ≠ [] → (c.received bs).Ready →
      motive ((c.received bs).serveLoop env (c.received bs).serveFuel).1) :
    motive (c.onMessage env r).1 := by
  cases hclosed : c.closed with
  | true => rw [onMessage_closed hclosed]; exact closed hclosed
  | false =>
    by_cases hr : ∀ bs, r = .data bs → bs = []
    · rw [onMessage_nothing hclosed hr]
      exact nothing hclosed hr
    · simp only [not_forall] at hr
      obtain ⟨bs, rfl, hne⟩ := hr
      obtain ⟨hl, hv, hs⟩ := hc.ready hclosed
      rw [onMessage_data hv hclosed hne]
      exact loop bs rfl hclosed hne ⟨⟨hl.closed_iff, hl.answered⟩, hv.writeVia hfit, hs⟩

theorem connMachine_step [HeadMemory] {s s' : Connection H × Exit} {event : ConnEvent H}
    (h : connMachine.step s event = some s') :
    (∃ env r, event = .message env r ∧ r.Fits s.1.readBuf ∧ s'.1 = (s.1.onMessage env r).1) ∨
      (event = .close ∧ s'.1 = s.1.onClose) := by
  obtain ⟨c, exit⟩ := s
  cases exit with
  | threw e => cases h
  | loopEnd | badRequest | closedFirst =>
    cases event with
    | close => cases h; exact .inr ⟨rfl, rfl⟩
    | message env r =>
      obtain ⟨hfit, h⟩ := Option.ite_none_right_eq_some.mp h
      exact .inl ⟨env, r, rfl, hfit, by rw [← Option.some.inj h]⟩

theorem connMachine_kept [HeadMemory] : (connMachine (H := H)).Kept fun s => s.1.Inv := by
  intro s s' event hs h
  obtain ⟨env, r, -, hfit, h⟩ | ⟨-, h⟩ := connMachine_step h
  · rw [h]
    refine onMessage_cases hs hfit (fun _ => hs) (fun _ _ => ?_) fun bs _ _ _ hc' => ?_
    · exact .onClose ⟨hs.logged.closed_iff, hs.logged.answered⟩
    · have hready := serve_ready env hc' (turnsLeft_lt_serveFuel _)
      exact ⟨hready.logged, fun _ => hready⟩
  · rw [h]
    exact .onClose hs.logged

theorem Connection.Inv.accepted [HeadMemory] : (connMachine (H := H)).init.1.Inv := by
  have hl : (connMachine (H := H)).init.1.Logged := by
    refine ⟨iff_of_false Bool.false_ne_true ?_, .nil⟩
    intro ⟨_, he, _⟩
    cases he
  exact ⟨hl, fun _ => ⟨hl, Buffer.valid_new, sound_new⟩⟩

/-- **A run keeps `P` exactly if every turn is good.** -/
theorem always_iff_turns [HeadMemory] {P : List (Event H) → Prop}
    {Good : ServerEnv H → Connection H → HttpParser → Prop} (law : TurnLaw P Good)
    {events : List (ConnEvent H)} {s : Connection H × Exit} (h : connMachine.run events = some s) :
    connMachine.Always (fun s => P s.1.log) events ↔
      connMachine.Each (fun s => EachTurn Good s.1) events := by
  refine Machine.always_iff_each (I := fun s => s.1.Inv) .accepted law.nil connMachine_kept ?_ h
  intro s s' event hs hP hstep
  obtain ⟨env, r, rfl, hfit, h⟩ | ⟨rfl, h⟩ := connMachine_step hstep
  · rw [h]
    refine onMessage_cases hs hfit (motive := fun c => P c.log ↔ _) ?_ ?_ ?_
    · intro hclosed
      refine iff_of_true hP fun hopen => ?_
      rw [hclosed] at hopen
      cases hopen
    · intro _ hr
      refine iff_of_true ?_ fun _ bs hbs hne => absurd (hr bs hbs) hne
      exact law.close (c := { s.1 with readBuf := s.1.readBuf.beginWrite.1 })
        ⟨hs.logged.closed_iff, hs.logged.answered⟩ hP
    · rintro bs rfl hopen hne ⟨hl, hv, hp⟩
      rw [(serve_iff law env hv hp (turnsLeft_lt_serveFuel _) hl).2 hP]
      refine ⟨fun hall _ bs' hbs' _ => ?_, fun hall => hall hopen bs rfl hne⟩
      cases hbs'
      exact hall
  · rw [h]
    exact iff_of_true (law.close hs.logged hP) trivial

end Hound.Http
