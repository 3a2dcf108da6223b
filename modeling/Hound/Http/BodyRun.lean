import Hound.Http.ParserLaws
import Hound.Lib.Machine

/-!
# A body that comes in pieces

`bodyMachine S p` calls `parse_body` from `p` on, with windows on the stream `S`: each begins
at the first byte that was not consumed, and there is no call after `DONE`. `Lockstep`: what
was read, what was kept and what was consumed are one and the same prefix of `S`, no longer
than announced.
-/

namespace Hound.Http

open Lib

/-- The parser, and the number of bytes consumed. The input is a window. -/
def bodyMachine (S : Bytes) (p : HttpParser) : Machine (HttpParser × Nat) Bytes where
  init := (p, 0)
  step := fun (p, consumed) w =>
    if p.state = .body ∧ w <+: S.drop consumed then
      some ((p.parseBody w).1, consumed + (p.parseBody w).2)
    else none

namespace HttpParser

variable {S w : Bytes} {n : Nat} {p : HttpParser} {s s' : HttpParser × Nat}

structure Lockstep (S : Bytes) (n : Nat) (s : HttpParser × Nat) : Prop where
  inv : s.1.Inv
  length : s.1.contentLength = n
  read : s.1.bodyRead = s.2
  kept : s.1.tempBody = S.take s.2
  offered : s.2 ≤ S.length
  phase : s.1.state = .body ∨ s.1.state = .done ∧ s.1.request.body = S.take n

theorem take_append_window {c m : Nat} (hw : w <+: S.drop c) (hm : m ≤ w.length)
    (hc : c ≤ S.length) : S.take c ++ w.take m = S.take (c + m) ∧ c + m ≤ S.length := by
  have hlen := hw.length_le
  rw [List.length_drop] at hlen
  obtain ⟨rest, hrest⟩ := hw
  constructor
  · rw [List.take_add, ← hrest, List.take_append_of_le_length hm]
  · omega

theorem Lockstep.step (h : Lockstep S n s) (hs : (bodyMachine S p).step s w = some s') :
    Lockstep S n s' ∧ (s'.1.state = .done ↔ s'.2 = n) := by
  obtain ⟨q, c⟩ := s
  obtain ⟨hinv, hlen, hcount, hkept, hoff, -⟩ := h
  simp only at hinv hlen hcount hkept hoff
  subst hlen hcount
  obtain ⟨⟨hbody, hw⟩, hs'⟩ := Option.ite_none_right_eq_some.mp hs
  cases hs'
  have hle := hinv.read_le
  rcases Nat.lt_or_ge (q.bodyRead + w.length) q.contentLength with hlt | hge
  · -- the window is taken whole
    obtain ⟨htake, hin⟩ := take_append_window hw (Nat.le_refl _) hoff
    rw [List.take_length, ← hkept] at htake
    rw [hinv.parseBody_short hlt]
    refine ⟨⟨hinv.grown hbody (by omega), rfl, rfl, htake, hin, .inl hbody⟩, ?_⟩
    apply iff_of_false
    · show q.state ≠ .done
      rw [hbody]
      decide
    · show q.bodyRead + w.length ≠ q.contentLength
      omega
  · -- up to the announced length
    have hm : q.contentLength - q.bodyRead ≤ w.length := by omega
    have hsum : q.bodyRead + (q.contentLength - q.bodyRead) = q.contentLength := by omega
    have hgrow : q.bodyRead + (w.take (q.contentLength - q.bodyRead)).length = q.contentLength := by
      rw [List.length_take]
      omega
    obtain ⟨htake, hin⟩ := take_append_window hw hm hoff
    rw [hsum, ← hkept] at htake
    rw [hsum] at hin
    rw [hinv.parseBody_full hge]
    show Lockstep S _ (_, q.bodyRead + (q.contentLength - q.bodyRead)) ∧ _
    rw [hsum]
    refine ⟨⟨(hinv.grown hbody (Nat.le_of_eq hgrow)).completed, rfl, hgrow, htake, hin,
      .inr ⟨rfl, htake⟩⟩, iff_of_true rfl rfl⟩

theorem lockstep_kept :
    (bodyMachine S p).Kept fun s => Lockstep S n s ∧ (s.1.state = .done ↔ s.2 = n) :=
  fun h hs => h.1.step hs

end HttpParser

open HttpParser

/-- **A body is accumulated exactly.** After any windows, what was read is the prefix of the
stream that was consumed, no longer than announced, and the parser is done as soon as a call
has brought it to the announced length. -/
theorem body_accumulated {S : Bytes} {p q : HttpParser} {windows : List Bytes} {consumed : Nat}
    (hbody : p.state = .body) (hread : p.bodyRead = 0) (hnil : p.tempBody = [])
    (hn : p.contentLength < sizeMod)
    (h : (bodyMachine S p).run windows = some (q, consumed)) :
    q.bodyRead = q.tempBody.length ∧ q.bodyRead ≤ p.contentLength ∧
    q.tempBody = S.take q.bodyRead ∧
    q.contentLength = p.contentLength ∧
    sizeSub q.contentLength q.bodyRead = p.contentLength - q.bodyRead ∧
    consumed = q.bodyRead ∧
    (q.state = .body ∨ q.state = .done) ∧
    (q.state = .done ↔ windows ≠ [] ∧ consumed = p.contentLength) ∧
    (q.state = .done → q.request.body = S.take p.contentLength) := by
  have hinit : Lockstep S p.contentLength (bodyMachine S p).init :=
    ⟨⟨fun _ => hread, hread ▸ Nat.zero_le _, hn⟩, rfl, hread, hnil, Nat.zero_le _, .inl hbody⟩
  have hrun : Lockstep S p.contentLength (q, consumed) ∧
      (q.state = .done ↔ windows ≠ [] ∧ consumed = p.contentLength) := by
    cases windows with
    | nil =>
      cases h
      refine ⟨hinit, iff_of_false ?_ fun h => h.1 rfl⟩
      rw [hbody]
      decide
    | cons w ws =>
      obtain ⟨s₁, h1, h2⟩ := Machine.runFrom_cons h
      obtain ⟨hlock, hdone⟩ := lockstep_kept.runFrom (hinit.step h1) h2
      exact ⟨hlock, hdone.trans (and_iff_right (List.cons_ne_nil _ _)).symm⟩
  obtain ⟨⟨hinv, hlen, hcount, hkept, hoff, hphase⟩, hdone⟩ := hrun
  simp only at hlen hcount hkept hoff hphase
  subst hcount
  refine ⟨?_, hlen ▸ hinv.read_le, hkept, hlen, ?_, rfl, hphase.imp id And.left, hdone,
    fun hd => ?_⟩
  · rw [hkept, List.length_take, Nat.min_eq_left hoff]
  · rw [hinv.needed, hlen]
  · exact (hphase.resolve_left (by rw [hd]; decide)).2

def fiveBytes : HttpParser := { HttpParser.new with state := .body, contentLength := 5 }

/-- They come in three windows, the second one empty and the last one with what follows. -/
theorem body_accumulated_pieces :
    ∃ q, (bodyMachine (bytes "helloGET") fiveBytes).run [bytes "he", [], bytes "lloGET"] =
      some (q, 5) ∧ q.state = .done ∧ q.request.body = bytes "hello" := by
  have h : (bodyMachine (bytes "helloGET") fiveBytes).run [bytes "he", [], bytes "lloGET"] =
      some ({ fiveBytes with
        state := .done, bodyRead := 5, tempBody := bytes "hello"
        request := { fiveBytes.request with body := bytes "hello" } }, 5) := rfl
  obtain ⟨-, -, -, -, -, -, -, hdone, hbody⟩ :=
    body_accumulated (p := fiveBytes) rfl rfl rfl (by decide) h
  have hd := hdone.mpr ⟨List.cons_ne_nil _ _, rfl⟩
  exact ⟨_, h, hd, hbody hd⟩

end Hound.Http
