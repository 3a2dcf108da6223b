import Hound.Http.Safety
import Hound.Io.BufferBlock

/-!
# `parse` on a buffer

`parse_eq` is the loop of `parse` without its fuel, `parse_spec` what a call leaves: a
valid buffer without the consumed bytes, and a parser that waits (`Stuck`) or has
nothing left. On content that lies in one block, `parse` goes as far as the one-shot
run does (`parse_run`) and then on from there.
-/

namespace Hound.Http

open Lib Lib.Consumer HttpParser

variable {p q : HttpParser} {w beyond : Bytes} {b : Buffer}

/-! ## One dispatch -/

theorem dispatch_le (h : Sound p) {c : Nat} (hd : p.dispatch w beyond = .ok (q, c)) :
    c ≤ w.length := by
  rcases state_cases p with hp | hs | hs
  · rw [dispatch_plain hp, Except.ok.injEq] at hd
    have := step_le h.inv hp w
    rwa [hd] at this
  · rw [dispatch_chunked hs] at hd
    refine chunk_induction (motive := fun p w r => ∀ q c, r = .ok (q, c) → c ≤ w.length)
      ?wait ?off ?last ?size ?overflow ?part ?full h.size_lt q c hd
    case wait => rintro p w - q c ⟨⟩; exact Nat.zero_le _
    case off => rintro _ _ _ _ _ _ _ _ h; cases h
    case last => rintro p w i - hf - q c ⟨⟩; exact findCrlf_le hf
    case size =>
      rintro p w i n (e | a) - hf - - ih q c hq
      · cases hq
      · cases hq
        have := findCrlf_le hf
        have := ih a.1 a.2 rfl
        rw [List.length_drop] at this
        omega
    case overflow => rintro _ _ _ _ _ _ _ h; cases h
    case part => rintro p w - - - - q c ⟨⟩; exact Nat.min_le_left _ _
    case full =>
      rintro p w (e | a) - - hw ih q c hq
      · cases hq
      · cases hq
        have := ih a.1 a.2 rfl
        rw [List.length_drop] at this
        omega
  · rw [dispatch_stopped hs] at hd
    cases hd
    exact Nat.zero_le _

theorem Sound.dispatch (h : Sound p) {c : Nat} (hd : p.dispatch w beyond = .ok (q, c)) :
    Sound q :=
  kept_sound (i := .dispatch w beyond) h (by simp [parserMachine, hd, Except.toOption])

/-- More bytes are needed: a dispatch on `w` does nothing, whatever lies beyond. -/
def Stuck (p : HttpParser) (w : Bytes) : Prop := ∀ beyond, p.dispatch w beyond = .ok (p, 0)

theorem parseChunkedBody_idle (h : Sound p) (hd : p.parseChunkedBody w beyond = .ok (q, 0)) :
    q = p ∧ ∀ beyond, p.parseChunkedBody w beyond = .ok (p, 0) := by
  refine chunk_induction (motive := fun p w r => r = .ok (q, 0) →
    q = p ∧ ∀ beyond, p.parseChunkedBody w beyond = .ok (p, 0))
    ?wait ?off ?last ?size ?overflow ?part ?full h.size_lt hd
  case wait =>
    rintro p w (rfl | ⟨hr, hf⟩) hq
    · cases hq; exact ⟨rfl, parseChunkedBody_nil q⟩
    · cases hq; exact ⟨rfl, parseChunkedBody_wait hr hf⟩
  case off => rintro _ _ _ _ _ _ h; cases h
  case last => rintro _ _ _ _ _ _ h; cases h
  case size =>
    rintro p w i n (e | a) - - - - - hq
    · cases hq
    · simp [Except.map, shift] at hq
  case overflow => rintro _ _ _ _ _ h; cases h
  case part =>
    intro p w hr hw hlim hlt hq
    have hwl : 0 < w.length := List.length_pos_iff.mpr hw
    simp only [Except.ok.injEq, Prod.mk.injEq] at hq
    obtain ⟨hpq, hmin⟩ := hq
    have hsame : p.partly w 0 = p := by simp [partly]
    rw [hmin, hsame] at hpq
    refine ⟨hpq.symm, fun beyond => ?_⟩
    rw [parseChunkedBody_part hr hlim hlt beyond, hmin, hsame]
  case full =>
    rintro p w (e | a) - - - - hq
    · cases hq
    · simp [Except.map, shift] at hq

/-- **A dispatch that consumes nothing leaves a parser that waits.** -/
theorem dispatch_idle (h : Sound p) (hd : p.dispatch w beyond = .ok (q, 0)) :
    Stuck q w ∧ ∀ beyond, p.dispatch w beyond = .ok (q, 0) := by
  rcases state_cases p with hp | hs | hs
  · rw [dispatch_plain hp, Except.ok.injEq] at hd
    have h0 : (p.plainStep w).2 = 0 := by rw [hd]
    have hall : ∀ beyond, p.dispatch w beyond = .ok (q, 0) := fun beyond => by
      rw [dispatch_plain hp, hd]
    refine ⟨?_, hall⟩
    rcases plainStep_idle h.inv hp h0 with hq | hq
    · rw [hd] at hq
      subst hq
      exact hall
    · rw [hd] at hq
      exact dispatch_stopped hq w
  · have hd' := hd
    rw [dispatch_chunked hs] at hd'
    obtain ⟨rfl, hall⟩ := parseChunkedBody_idle h hd'
    have hst : Stuck q w := fun beyond => by rw [dispatch_chunked hs]; exact hall beyond
    exact ⟨hst, hst⟩
  · rw [dispatch_stopped hs] at hd
    cases hd
    exact ⟨dispatch_stopped hs w, dispatch_stopped hs w⟩

theorem dispatch_nil (h : Sound p) : ∃ q, ∀ beyond, p.dispatch [] beyond = .ok (q, 0) := by
  rcases state_cases p with hp | hs | hs
  · have h0 : (p.plainStep []).2 = 0 := Nat.le_zero.mp (step_le h.inv hp [])
    refine ⟨(p.plainStep []).1, fun beyond => ?_⟩
    rw [dispatch_plain hp, ← h0]
  · exact ⟨p, fun beyond => by rw [dispatch_chunked hs, parseChunkedBody_nil]⟩
  · exact ⟨p, dispatch_stopped hs []⟩

/-! ## The loop -/

def advance (n : Nat) (r : HttpParser × Buffer × Nat) : HttpParser × Buffer × Nat :=
  (r.1, r.2.1, n + r.2.2)

theorem map_advance_zero (r : Except Fault (HttpParser × Buffer × Nat)) :
    r.map (advance 0) = r := by
  cases r with
  | error e => rfl
  | ok r => simp [advance, Except.map]

theorem map_advance_advance (m n : Nat) (r : Except Fault (HttpParser × Buffer × Nat)) :
    (r.map (advance n)).map (advance m) = r.map (advance (m + n)) := by
  cases r with
  | error e => rfl
  | ok r => simp [advance, Except.map, Nat.add_assoc]

theorem parseLoop_succ (fuel : Nat) (p : HttpParser) (h0 : b.size ≠ 0) :
    parseLoop (fuel + 1) p b =
      match p.dispatch b.window b.beyond with
      | .error e => .error e
      | .ok (q, c) =>
        if c = 0 then .ok (q, b, 0) else (parseLoop fuel q (b.retrieve c)).map (advance c) := by
  rw [parseLoop, if_neg h0]
  rfl

theorem parseLoop_fuel : ∀ {f g : Nat} {p : HttpParser} {b : Buffer}, b.Valid → b.size ≤ f →
    b.size ≤ g → parseLoop f p b = parseLoop g p b := by
  have hempty {b : Buffer} (h0 : b.size = 0) (f : Nat) (p : HttpParser) :
      parseLoop f p b = .ok (p, b, 0) := by
    cases f with
    | zero => rfl
    | succ f => rw [parseLoop, if_pos h0]
  intro f
  induction f with
  | zero =>
    intro g p b _ hf _
    rw [hempty (Nat.le_zero.mp hf), hempty (Nat.le_zero.mp hf)]
  | succ f ih =>
    intro g p b hb hf hg
    by_cases h0 : b.size = 0
    · rw [hempty h0, hempty h0]
    · obtain ⟨g, rfl⟩ := Nat.exists_eq_succ_of_ne_zero (show g ≠ 0 by omega)
      rw [parseLoop_succ f p h0, parseLoop_succ g p h0]
      cases p.dispatch b.window b.beyond with
      | error e => rfl
      | ok r =>
        by_cases hc : r.2 = 0
        · simp only [if_pos hc]
        · have hsize := hb.size_retrieve r.2
          simp only [if_neg hc]
          rw [ih (g := g) (hb.retrieve r.2) (by omega) (by omega)]

theorem parse_empty (p : HttpParser) (h0 : b.size = 0) : p.parse b = .ok (p, b, 0) := by
  rw [parse, h0]; rfl

/-- **The loop of `parse`**, one turn unfolded. -/
theorem parse_eq (hb : b.Valid) (p : HttpParser) (h0 : b.size ≠ 0) :
    p.parse b =
      match p.dispatch b.window b.beyond with
      | .error e => .error e
      | .ok (q, c) =>
        if c = 0 then .ok (q, b, 0) else (q.parse (b.retrieve c)).map (advance c) := by
  obtain ⟨n, hn⟩ := Nat.exists_eq_succ_of_ne_zero h0
  rw [parse, hn, parseLoop_succ n p h0]
  cases p.dispatch b.window b.beyond with
  | error e => rfl
  | ok r =>
    by_cases hc : r.2 = 0
    · simp only [if_pos hc]
    · have hsize := hb.size_retrieve r.2
      simp only [if_neg hc]
      rw [parse, parseLoop_fuel (hb.retrieve r.2) (show _ ≤ n by omega) (Nat.le_refl _)]

theorem Stuck.parse (hb : b.Valid) (h : Stuck p b.window) : p.parse b = .ok (p, b, 0) := by
  by_cases h0 : b.size = 0
  · exact parse_empty p h0
  · rw [parse_eq hb p h0, h]
    rfl

/-- **Induction along the loop of `parse`.** -/
theorem parse_induction
    {motive : HttpParser → Buffer → Except Fault (HttpParser × Buffer × Nat) → Prop}
    (empty : ∀ {p : HttpParser} {b : Buffer}, b.Valid → b.size = 0 → motive p b (.ok (p, b, 0)))
    (threw : ∀ {p : HttpParser} {b : Buffer} {e : Fault}, b.Valid → b.size ≠ 0 →
      p.dispatch b.window b.beyond = .error e → motive p b (.error e))
    (wait : ∀ {p q : HttpParser} {b : Buffer}, b.Valid → b.size ≠ 0 →
      p.dispatch b.window b.beyond = .ok (q, 0) → motive p b (.ok (q, b, 0)))
    (more : ∀ {p q : HttpParser} {b : Buffer} {c : Nat}
      {r : Except Fault (HttpParser × Buffer × Nat)}, b.Valid → b.size ≠ 0 →
      p.dispatch b.window b.beyond = .ok (q, c) → c ≠ 0 → motive q (b.retrieve c) r →
      motive p b (r.map (advance c))) :
    ∀ {b : Buffer} {p : HttpParser}, b.Valid → motive p b (p.parse b) := by
  intro b
  induction hn : b.size using Nat.strong_induction_on generalizing b with
  | _ n ih =>
  subst hn
  intro p hb
  by_cases h0 : b.size = 0
  · rw [parse_empty p h0]; exact empty hb h0
  · rw [parse_eq hb p h0]
    cases hd : p.dispatch b.window b.beyond with
    | error e => exact threw hb h0 hd
    | ok r =>
      obtain ⟨q, c⟩ := r
      by_cases hc : c = 0
      · subst hc; exact wait hb h0 hd
      · simp only [if_neg hc]
        have hsize := hb.size_retrieve c
        exact more hb h0 hd hc (ih _ (by omega) rfl (hb.retrieve c))

/-- **What `parse` leaves**: the buffer without the bytes it consumed, and a parser that
cannot go on. -/
theorem parse_spec (hb : b.Valid) (hp : Sound p) {b' : Buffer} {k : Nat}
    (h : p.parse b = .ok (q, b', k)) :
    b'.Valid ∧ b'.content = b.content.drop k ∧ b'.size + k = b.size ∧ Sound q ∧
      (b'.size = 0 ∨ Stuck q b'.window) ∧ (k = 0 → b' = b) := by
  refine parse_induction (motive := fun p b r => Sound p → ∀ q b' k, r = .ok (q, b', k) →
    b'.Valid ∧ b'.content = b.content.drop k ∧ b'.size + k = b.size ∧ Sound q ∧
      (b'.size = 0 ∨ Stuck q b'.window) ∧ (k = 0 → b' = b))
    ?empty ?threw ?wait ?more hb hp q b' k h
  case empty => rintro p b hb h0 hp q b' k ⟨⟩; exact ⟨hb, rfl, rfl, hp, .inl h0, fun _ => rfl⟩
  case threw => rintro _ _ _ _ _ _ _ _ _ _ h; cases h
  case wait =>
    rintro p q b hb _ hd hp q' b' k ⟨⟩
    exact ⟨hb, rfl, rfl, hp.dispatch hd, .inr (dispatch_idle hp hd).1, fun _ => rfl⟩
  case more =>
    rintro p q b c (e | a) hb h0 hd hc ih hp q' b' k hr
    · cases hr
    · cases hr
      have hle := Nat.le_trans (dispatch_le hp hd) hb.window_le
      have hsize := hb.size_retrieve c
      obtain ⟨hv, hcon, hs, hq, hend, -⟩ := ih (hp.dispatch hd) a.1 a.2.1 a.2.2 rfl
      refine ⟨hv, ?_, show a.2.1.size + (c + a.2.2) = b.size by omega, hq, hend,
        fun h0 => absurd (show c + a.2.2 = 0 from h0) (by omega)⟩
      rw [hcon, hb.content_retrieve, List.drop_drop]

/-- What every dispatch keeps of the parser, and `retrieve` of the buffer, `parse` keeps. -/
theorem parse_keeps {I : HttpParser → Prop} {J : Buffer → Prop}
    (hI : ∀ {p q : HttpParser} {w beyond : Bytes} {c : Nat}, I p →
      p.dispatch w beyond = .ok (q, c) → I q)
    (hJ : ∀ {b : Buffer} (n : Nat), J b → J (b.retrieve n)) (hv : b.Valid) (hp : I p) (hb : J b)
    {b' : Buffer} {k : Nat} (h : p.parse b = .ok (q, b', k)) : I q ∧ J b' := by
  refine parse_induction (motive := fun p b r => I p → J b → ∀ q b' k, r = .ok (q, b', k) →
    I q ∧ J b') ?empty ?threw ?wait ?more hv hp hb q b' k h
  case empty => rintro p b - - hp hb q b' k ⟨⟩; exact ⟨hp, hb⟩
  case threw => rintro _ _ _ _ _ _ _ _ _ _ _ h; cases h
  case wait => rintro p q b - - hd hp hb q' b' k ⟨⟩; exact ⟨hI hp hd, hb⟩
  case more =>
    rintro p q b c (e | a) - - hd - ih hp hb q' b' k hr
    · cases hr
    · cases hr; exact ih (hI hp hd) (hJ c hb) a.1 a.2.1 a.2.2 rfl

/-! ## Contiguous content -/

/-- **On content that lies in one block, `parse` makes the one-shot run** and goes on
from where that ends. -/
theorem parse_run {J : Buffer → Prop} (hJ : Buffer.Contiguous J) (hb : J b) (hp : p.Inv) :
    ∃ b', J b' ∧ b'.content = b.content.drop (plainMachine.run p b.content).2 ∧
      p.parse b = ((plainMachine.run p b.content).1.parse b').map
        (advance (plainMachine.run p b.content).2) := by
  generalize hw : b.content = w
  induction hl : w.length using Nat.strong_induction_on generalizing w p b with
  | _ len ih =>
  subst hl
  by_cases hs : plainMachine.halted p = true ∨ w = []
  · have hrun : plainMachine.run p w = (p, 0) := by rw [Consumer.run, if_pos hs]
    rw [hrun]
    exact ⟨b, hb, by rw [hw, List.drop_zero], (map_advance_zero _).symm⟩
  · obtain ⟨hplain, hne⟩ := not_or.mp hs
    have hplain : p.plain = true := not_halted.mp (by simpa using hplain)
    have h0 : b.size ≠ 0 := fun h0 => hne (hw ▸ (hJ.valid hb).size_eq_zero_iff.mp h0)
    have hparse := parse_eq (hJ.valid hb) p h0
    rw [dispatch_plain hplain, hJ.window hb, hw] at hparse
    by_cases hc : (p.plainStep w).2 = 0
    · have hrun : plainMachine.run p w = p.plainStep w :=
        run_idle (not_halted.mpr hplain) hne hc
      refine ⟨b, hb, by rw [hrun, hw, hc, List.drop_zero], ?_⟩
      -- the parser that the last step left goes no further
      have hst : Stuck (p.plainStep w).1 b.window := by
        rw [hJ.window hb, hw]
        rcases plainStep_idle hp hplain hc with hq | hq
        · intro beyond
          rw [hq, dispatch_plain hplain]
          exact congrArg _ (Prod.ext hq hc)
        · exact dispatch_stopped hq w
      rw [hparse, hrun, hst.parse (hJ.valid hb)]
      simp only [hc, if_true]
      rfl
    · have hrun : plainMachine.run p w = shift (p.plainStep w).2
          (plainMachine.run (p.plainStep w).1 (w.drop (p.plainStep w).2)) :=
        run_advance (not_halted.mpr hplain) hne hc
      have hlen : 0 < w.length := List.length_pos_iff.mpr hne
      obtain ⟨b', hb', hcon, hgo⟩ := ih _ (by rw [List.length_drop]; omega) (hJ.retrieve _ hb)
        (keep_inv hp hplain w) (w.drop (p.plainStep w).2)
        (by rw [(hJ.valid hb).content_retrieve, hw]) rfl
      refine ⟨b', hb', by rw [hcon, hrun, List.drop_drop]; rfl, ?_⟩
      rw [hparse, hrun]
      simp only [if_neg hc]
      rw [hgo, map_advance_advance]
      rfl

end Hound.Http
