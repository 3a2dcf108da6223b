import Hound.Http.Progress

/-!
# Reusing a parser

`take_request` moves the request out and resets nothing: the parser stays in DONE, where
`parse` consumes nothing (`feed_done`). `reuse_iff` compares it with a fresh one on a
stream that comes in pieces.
-/

namespace Hound.Http.HttpParser

/-- What the caller can see after a call of `parse`. -/
structure Seen where
  state : State
  request : HttpRequest
  consumed : Nat

/-- Append the pieces of a stream to the buffer one by one, with a call of `parse` after each. -/
def feed (p : HttpParser) (b : Buffer) : List Bytes → List (Except Fault Seen)
  | [] => []
  | s :: pieces =>
    match p.parse (b.append s) with
    | .error e => [.error e]
    | .ok (q, b', k) => .ok ⟨q.state, q.request, k⟩ :: q.feed b' pieces

variable {p q : HttpParser} {b b' : Buffer}

theorem feed_done (h : p.state = .done) : ∀ {b : Buffer} (_ : b.Valid) (pieces : List Bytes),
    p.feed b pieces = pieces.map fun _ => .ok ⟨.done, p.request, 0⟩
  | _, _, [] => rfl
  | b, hb, s :: pieces => by
    have hv := hb.append s
    rw [feed, parse_stopped hv (.inl h)]
    simp only
    rw [feed_done h hv pieces, h]
    rfl

theorem parse_new_idle (hb : b.Valid) (h : new.parse b = .ok (q, b', 0)) : q.state ≠ .done := by
  by_cases h0 : b.size = 0
  · rw [parse_empty new h0] at h
    cases h
    exact State.noConfusion
  · have hd : new.dispatch b.window b.beyond = .ok (new.parseRequestLine b.window) := rfl
    rw [parse_eq hb new h0, hd] at h
    rcases parseRequestLine_cases new b.window with ⟨-, hr⟩ | ⟨i, -, -, hr⟩ | ⟨i, r, -, -, hr⟩
    · rw [hr] at h
      cases h
      exact State.noConfusion
    · rw [hr] at h
      cases h
      exact State.noConfusion
    · rw [hr] at h
      simp only [if_neg (Nat.succ_ne_zero (i + 1))] at h
      generalize ({ new with request := r, state := .headers } : HttpParser).parse _ = a at h
      cases a with
      | error e => cases h
      | ok a => simp [Except.map, advance] at h

/-- **A parser is not reusable after `take_request`.** What it shows for a stream differs from
what a fresh parser shows as soon as anything is fed. -/
theorem reuse_iff (h : p.state = .done) (hb : b.Valid) (pieces : List Bytes) :
    p.takeRequest.2.feed b pieces = new.feed b pieces ↔ pieces = [] := by
  refine ⟨fun heq => ?_, fun he => by rw [he]; rfl⟩
  cases pieces with
  | nil => rfl
  | cons s pieces =>
    have hdone : p.takeRequest.2.state = .done := h
    rw [feed_done hdone hb, feed] at heq
    cases hr : new.parse (b.append s) with
    | error e => rw [hr] at heq; simp at heq
    | ok r =>
      obtain ⟨q, b', k⟩ := r
      rw [hr] at heq
      simp only [List.map_cons, List.cons.injEq, Except.ok.injEq, Seen.mk.injEq] at heq
      obtain ⟨⟨hq, -, hk⟩, -⟩ := heq
      rw [← hk] at hr
      exact absurd hq.symm (parse_new_idle (hb.append s) hr)

def served : HttpParser := { state := .done, request := { path := bytes "/" } }

theorem reuse_served : served.takeRequest.2.feed Buffer.new [bytes "GET"] =
    new.feed Buffer.new [bytes "GET"] ↔ [bytes "GET"] = [] :=
  reuse_iff rfl Buffer.valid_new _

/-- The next request of a pipelined stream: a fresh parser reads its 18 bytes, the used one none. -/
theorem reuse_reads_nothing :
    (served.takeRequest.2.feed Buffer.new [bytes "GET / HTTP/1.1\r\n\r\n"]).map
        (·.toOption.map Seen.consumed) = [some 0] ∧
    (new.feed Buffer.new [bytes "GET / HTTP/1.1\r\n\r\n"]).map
        (·.toOption.map Seen.consumed) = [some 18] ∧
    served.takeRequest.2.feed Buffer.new [bytes "GET / HTTP/1.1\r\n\r\n"] ≠
      new.feed Buffer.new [bytes "GET / HTTP/1.1\r\n\r\n"] := by
  have hused : (served.takeRequest.2.feed Buffer.new [bytes "GET / HTTP/1.1\r\n\r\n"]).map
      (·.toOption.map Seen.consumed) = [some 0] := by decide +kernel
  have hnew : (new.feed Buffer.new [bytes "GET / HTTP/1.1\r\n\r\n"]).map
      (·.toOption.map Seen.consumed) = [some 18] := by decide +kernel
  refine ⟨hused, hnew, fun heq => ?_⟩
  rw [heq, hnew] at hused
  cases hused

end Hound.Http.HttpParser
