import Hound.Http.ParserLaws

/-!
# Segmentation does not matter

`Steps s p n`: dispatch steps of `parse` in the states that frame a message without
chunks have brought a fresh parser to `p`, with the first `n` bytes of the stream `s`
consumed; every step saw some prefix of the bytes not yet consumed. `oneShot s` gives
every step all of them.
-/

namespace Hound.Http

open Lib Lib.Consumer HttpParser

inductive Steps (s : Bytes) : HttpParser → Nat → Prop where
  | fresh : Steps s .new 0
  | step {p q : HttpParser} {n c : Nat} {w beyond : Bytes} (h : Steps s p n)
      (hp : p.plain = true) (hne : s.drop n ≠ []) (hw : w <+: s.drop n)
      (hd : p.dispatch w beyond = .ok (q, c)) : Steps s q (n + c)

/-- The run on the whole stream: the parser it ends in and the bytes it consumed. -/
def oneShot (s : Bytes) : HttpParser × Nat := plainMachine.run .new s

variable {s : Bytes} {p q : HttpParser} {n : Nat}

theorem Steps.segmented (h : Steps s p n) : plainMachine.Segmented .new s p n := by
  induction h with
  | fresh => exact .refl _ _
  | step _ hp hne hw hd ih =>
    rw [dispatch_plain hp, Except.ok.injEq] at hd
    have hs := ih.snoc (not_halted.mpr hp) hne hw
    rwa [show plainMachine.step = plainStep from rfl, hd] at hs

theorem Steps.plain (h : Steps s p n) (hp : p.plain = true) (hne : s.drop n ≠ []) {w : Bytes}
    (hw : w <+: s.drop n) : Steps s (p.plainStep w).1 (n + (p.plainStep w).2) :=
  h.step hp hne hw (dispatch_plain hp w [])

theorem halted_of_state (hs : p.state = .done ∨ p.state = .error) :
    plainMachine.halted p = true := by
  unfold plainMachine HttpParser.plain
  rcases hs with hs | hs <;> simp [hs]

/-- **Segmentation does not matter.** A segmented run that reaches DONE or ERROR
ends as the one-shot run does, and so does one whose last step got all that was left
and consumed nothing. -/
theorem segmentation_irrelevant (h : Steps s p n) :
    (p.state = .done → oneShot s = (p, n)) ∧
    (p.state = .error → (oneShot s).1.state = .error) ∧
    (∀ q beyond, p.plain = true → s.drop n ≠ [] → p.dispatch (s.drop n) beyond = .ok (q, 0) →
      oneShot s = (q, n)) := by
  have hseg := h.segmented
  refine ⟨fun hs => ?_, fun hs => ?_, fun q beyond hp hne hd => ?_⟩
  · exact hseg.run_of_halted plain_incremental inv_new (halted_of_state (.inl hs))
  · rw [oneShot, hseg.run_of_halted plain_incremental inv_new (halted_of_state (.inr hs))]
    exact hs
  · rw [dispatch_plain hp, Except.ok.injEq] at hd
    have hstep : plainMachine.step p (s.drop n) = (q, 0) := hd
    have hrun := hseg.run_of_idle plain_incremental inv_new (not_halted.mpr hp) hne
      (by rw [hstep])
    rwa [hstep] at hrun

/-- A request whose last CRLF is cut in two, followed by other bytes. -/
theorem segmentation_irrelevant_cut_crlf :
    ∃ p n, Steps (bytes "GET / HTTP/1.1\r\nA:b\r\n\r\nrest") p n ∧
      p.state = .done ∧ n = 23 ∧ oneShot (bytes "GET / HTTP/1.1\r\nA:b\r\n\r\nrest") = (p, n) := by
  let s := bytes "GET / HTTP/1.1\r\nA:b\r\n\r\nrest"
  have h1 := (Steps.fresh (s := s)).plain rfl (by decide) (List.take_prefix 16 _)
  have h2 := h1.plain rfl (by decide) (List.take_prefix 6 _)
  have h3 := h2.plain (by decide +kernel) (by decide +kernel) (List.prefix_refl _)
  exact ⟨_, _, h3, by decide +kernel, by decide +kernel,
    (segmentation_irrelevant h3).1 (by decide +kernel)⟩

end Hound.Http
