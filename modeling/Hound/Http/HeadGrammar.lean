import Hound.Http.Head
import Hound.Http.Safety

/-!
# The grammar of request heads

A window with a complete head is the list of the lines in front of the first empty line. On it
the parser finds an error exactly if the request line has fewer than two spaces; whatever else
the grammar asks for, `parse_headers` does not check. `accepts_exactly_iff` says on which
heads that is what it should do.
-/

namespace Hound.Http

open Lib Lib.Consumer HttpParser

/-! ## Lines -/

/-- `w` begins with these lines, which are not empty, and then an empty one. -/
def CompleteHead (w : Bytes) (lines : List Bytes) : Prop :=
  (∀ l ∈ lines, IsLine l ∧ l ≠ []) ∧ ∃ rest, w = lines.flatMap (· ++ crlf) ++ crlf ++ rest

theorem isLine_take {w : Bytes} {i : Nat} (h : findCrlf w = some i) : IsLine (w.take i) := by
  cases hf : Http.findCrlf (w.take i) with
  | none => exact hf
  | some j =>
    have hw := findCrlf_append hf (w.drop i)
    rw [List.take_append_drop, h, Option.some.injEq] at hw
    have hle := findCrlf_le hf
    rw [List.length_take] at hle
    omega

theorem exists_completeHead (w : Bytes) (h : crlf <+: w ∨ crlf ++ crlf <:+: w) :
    ∃ lines, CompleteHead w lines := by
  by_cases hstart : crlf <+: w
  · obtain ⟨rest, rfl⟩ := hstart
    exact ⟨[], by simp, rest, rfl⟩
  · obtain ⟨front, back, hw⟩ := h.resolve_left hstart
    -- the first line ends in the CRLF of the empty line, or in front of it
    obtain ⟨i, hf, hrest⟩ : ∃ i, findCrlf w = some i ∧
        (crlf <+: w.drop (i + 2) ∨ crlf ++ crlf <:+: w.drop (i + 2)) := by
      rw [← hw]
      cases hfront : findCrlf front with
      | none =>
        have hf := IsLine.findCrlf hfront (crlf ++ back)
        refine ⟨front.length, by simpa using hf, .inl ⟨back, ?_⟩⟩
        rw [show front ++ (crlf ++ crlf) ++ back = front ++ crlf ++ (crlf ++ back) by simp]
        exact (drop_line front _).symm
      | some j =>
        have hle := findCrlf_le hfront
        refine ⟨j, by simpa using findCrlf_append hfront (crlf ++ crlf ++ back),
          .inr ⟨front.drop (j + 2), back, ?_⟩⟩
        simp only [List.append_assoc]
        rw [List.drop_append_of_le_length hle]
    have hsplit := findPair_split hf
    have hlen := findCrlf_le hf
    obtain ⟨lines, hlines, rest, hw'⟩ := exists_completeHead (w.drop (i + 2)) hrest
    have hline : w.take i ≠ [] := by
      intro h0
      rw [h0, List.nil_append] at hsplit
      exact hstart ⟨w.drop (i + 2), hsplit.symm⟩
    refine ⟨w.take i :: lines, List.forall_mem_cons.mpr ⟨⟨isLine_take hf, hline⟩, hlines⟩, rest, ?_⟩
    rw [List.flatMap_cons, List.append_assoc, List.append_assoc,
      ← List.append_assoc (lines.flatMap _), ← hw', List.append_assoc]
    exact hsplit
termination_by w.length
decreasing_by
  rw [List.length_drop]
  omega

/-! ## Fields -/

def fieldName (l : Bytes) : Bytes := l.takeWhile (· ≠ 58)

def fieldValue (l : Bytes) : Bytes := ((l.dropWhile (· ≠ 58)).drop 1).dropWhile (· = SP)

def lastField (k : Bytes) (headers : List Bytes) : Option Bytes :=
  (headers.filter fun l => 58 ∈ l ∧ fieldName l = k).getLast?.map fieldValue

/-- The request line is `METHOD SP URI SP VERSION`, every header line has a name, and a
`Content-Length` is a number below `2^64`. -/
structure Grammatical (line : Bytes) (headers : List Bytes) : Prop where
  request : ∃ method uri version, line = requestText method uri version ∧
    (method ≠ [] ∧ SP ∉ method) ∧ (uri ≠ [] ∧ SP ∉ uri) ∧ version ≠ [] ∧ SP ∉ version
  named : ∀ l ∈ headers, 58 ∈ l ∧ fieldName l ≠ []
  length : ∀ v, lastField (bytes "Content-Length") headers = some v →
    ∃ n, Numeral 10 v n ∧ n < 2 ^ 64

def TwoSpaces (line : Bytes) : Prop := ∃ a b c, line = requestText a b c

section Colon

variable {name : Bytes}

theorem ne_colon (h : 58 ∉ name) : ∀ b ∈ name, decide (b ≠ 58) = true := fun _ hb =>
  decide_eq_true fun e => h (e ▸ hb)

theorem fieldName_append (h : 58 ∉ name) (t : Bytes) : fieldName (name ++ 58 :: t) = name := by
  rw [fieldName, List.takeWhile_append_of_pos (ne_colon h)]
  simp

theorem fieldValue_append (h : 58 ∉ name) (t : Bytes) :
    fieldValue (name ++ 58 :: t) = t.dropWhile (· = SP) := by
  rw [fieldValue, List.dropWhile_append_of_pos (ne_colon h)]
  simp

end Colon

theorem lastField_cons (k l : Bytes) (headers : List Bytes) :
    lastField k (l :: headers) = (lastField k headers).or
      (if 58 ∈ l ∧ fieldName l = k then some (fieldValue l) else none) := by
  unfold lastField
  rw [List.filter_cons]
  by_cases h : 58 ∈ l ∧ fieldName l = k
  · rw [if_pos (decide_eq_true h), if_pos h, List.getLast?_cons]
    cases (headers.filter fun l => 58 ∈ l ∧ fieldName l = k).getLast? <;> rfl
  · rw [if_neg (by simpa using h), if_neg h, Option.or_none]

theorem twoSpaces_count {line : Bytes} (h : TwoSpaces line) : 2 ≤ line.count SP := by
  obtain ⟨a, b, c, rfl⟩ := h
  simp only [requestText, List.count_append, List.count_cons_self]
  omega

namespace HttpParser

/-- `parse_request_line` gives up exactly on a line with fewer than two spaces. -/
theorem requestOfLine_eq_none (r : HttpRequest) (line : Bytes) :
    requestOfLine r line = none ↔ ¬ TwoSpaces line := by
  by_cases h : SP ∈ line
  · obtain ⟨a, t, rfl, ha⟩ := List.eq_append_cons_of_mem h
    by_cases ht : SP ∈ t
    · obtain ⟨b, c, rfl, hb⟩ := List.eq_append_cons_of_mem ht
      have htext : a ++ SP :: (b ++ SP :: c) = requestText a b c := by simp [requestText]
      rw [htext, requestOfLine_text ha hb]
      exact iff_of_false (by simp) (not_not_intro ⟨a, b, c, rfl⟩)
    · have hdrop : (a ++ SP :: t).drop (a.length + 1) = t := List.drop_length_add_append 1
      have hnone : findFrom SP (a.length + 1) (a ++ SP :: t) = none := by
        rw [findFrom, hdrop, List.idxOf?_eq_none_iff.mpr ht]; rfl
      refine iff_of_true (by simp [requestOfLine, idxOf?_append_cons t ha, hnone]) fun h2 => ?_
      have := twoSpaces_count h2
      rw [List.count_append, List.count_cons_self, List.count_eq_zero_of_not_mem ha,
        List.count_eq_zero_of_not_mem ht] at this
      omega
  · refine iff_of_true (by simp [requestOfLine, List.idxOf?_eq_none_iff.mpr h]) fun h2 => ?_
    have := twoSpaces_count h2
    rw [List.count_eq_zero_of_not_mem h] at this
    omega

theorem headerLine_colon {l : Bytes} (h : 58 ∈ l) (p : HttpParser) :
    p.headerLine l =
      { p with request := p.request.addHeader (fieldName l) (fieldValue l) } := by
  obtain ⟨name, t, rfl, hn⟩ := List.eq_append_cons_of_mem h
  have hdrop : (name ++ 58 :: t).drop (name.length + 1) = t := List.drop_length_add_append 1
  rw [headerLine, idxOf?_append_cons t hn]
  simp only [hdrop, List.take_left, fieldName_append hn, fieldValue_append hn]

theorem headerLine_no_colon {l : Bytes} (h : 58 ∉ l) (p : HttpParser) : p.headerLine l = p := by
  rw [headerLine, List.idxOf?_eq_none_iff.mpr h]

theorem readLines_frame (headers : List Bytes) (p : HttpParser) :
    ∃ r, p.readLines headers = { p with request := r } := by
  induction headers generalizing p with
  | nil => exact ⟨p.request, rfl⟩
  | cons l headers ih =>
    obtain ⟨r, hr⟩ := headerLine_eq p l
    obtain ⟨r', hr'⟩ := ih (p.headerLine l)
    refine ⟨r', ?_⟩
    rw [readLines, List.foldl_cons, ← readLines, hr', hr]

theorem readLines_header (k : Bytes) (headers : List Bytes) (p : HttpParser) :
    (p.readLines headers).request.header k =
      (lastField k headers).getD (p.request.header k) := by
  induction headers generalizing p with
  | nil => rfl
  | cons l headers ih =>
    rw [readLines, List.foldl_cons, ← readLines, ih, lastField_cons]
    by_cases h : 58 ∈ l
    · rw [headerLine_colon h, HttpRequest.header_addHeader]
      by_cases hk : k = fieldName l
      · rw [if_pos hk, if_pos ⟨h, hk.symm⟩]
        cases lastField k headers <;> rfl
      · rw [if_neg hk, if_neg fun hc => hk hc.2.symm, Option.or_none]
    · rw [headerLine_no_colon h, if_neg fun hc => h hc.1, Option.or_none]

/-- The parser behind the head of a window: a fresh one calls `parse_request_line`, and
`parse_headers` on what that leaves. -/
def headParsed (w : Bytes) : HttpParser :=
  let (p, k) := new.parseRequestLine w
  if p.state = .headers then (p.parseHeaders (w.drop k)).1 else p

/-- It is what the `switch` of `parse` makes of the window: one turn, and a second one if the
first got to the headers. -/
theorem headParsed_dispatch (w beyond : Bytes) : ∃ p k, new.dispatch w beyond = .ok (p, k) ∧
    (p.state ≠ .headers → headParsed w = p) ∧
    (p.state = .headers → ∃ d, p.dispatch (w.drop k) beyond = .ok (headParsed w, d)) := by
  refine ⟨_, _, rfl, fun hs => if_neg hs, fun hs => ?_⟩
  have hhead : headParsed w = _ := if_pos hs
  rw [dispatch, hs, hhead]
  exact ⟨_, rfl⟩

end HttpParser

namespace CompleteHead

variable {w : Bytes} {lines : List Bytes}

theorem split_line (h : CompleteHead w lines) : IsLine (lines.headD []) ∧
    ∃ more, w = lines.headD [] ++ crlf ++ more ∧ (lines ≠ [] →
      ∃ rest, more = lines.tail.flatMap (· ++ crlf) ++ crlf ++ rest) := by
  obtain ⟨hlines, rest, hw⟩ := h
  cases lines with
  | nil => exact ⟨rfl, rest, by simpa using hw, fun hne => absurd rfl hne⟩
  | cons l headers =>
    refine ⟨(hlines l List.mem_cons_self).1, _, ?_, fun _ => ⟨rest, rfl⟩⟩
    rw [hw]
    simp [List.append_assoc]

theorem headParsed_error (h : CompleteHead w lines) (h2 : ¬ TwoSpaces (lines.headD [])) :
    (headParsed w).state = .error := by
  obtain ⟨hline, more, rfl, -⟩ := h.split_line
  have hnone := (requestOfLine_eq_none HttpParser.new.request _).mpr h2
  rw [headParsed]
  simp only [parseRequestLine, hline.findCrlf more, take_line, hnone]
  rfl

theorem headParsed_some (h : CompleteHead w lines) {r : HttpRequest}
    (hr : requestOfLine HttpParser.new.request (lines.headD []) = some r) :
    headParsed w =
      (readLines { HttpParser.new with request := r, state := .headers }
        lines.tail).endOfHeaders := by
  obtain ⟨hline, more, rfl, hmore⟩ := h.split_line
  have hne : lines ≠ [] := by rintro rfl; cases hr
  obtain ⟨rest, rfl⟩ := hmore hne
  have htail : ∀ l ∈ lines.tail, IsLine l ∧ l ≠ [] := fun l hl => h.1 l (List.mem_of_mem_tail hl)
  have hp := parseHeaders_lines rest lines.tail
    { HttpParser.new with request := r, state := .headers } htail
  rw [headParsed]
  simp only [parseRequestLine, hline.findCrlf _, take_line, drop_line, hr]
  exact congrArg Prod.fst hp

end CompleteHead

def AsksChunks (headers : List Bytes) : Prop :=
  bytes "chunked" <:+: (lastField (bytes "Transfer-Encoding") headers).getD []

/-! ## What the end of the headers decides -/

section Decision

variable {r : HttpRequest} {line : Bytes} {headers : List Bytes}

/-- The parser between the request line and the header section. -/
def HttpRequest.atHeaders (r : HttpRequest) : HttpParser :=
  { HttpParser.new with request := r, state := .headers }

theorem header_atHeaders (hr : requestOfLine HttpParser.new.request line = some r)
    (headers : List Bytes) (k : Bytes) :
    (r.atHeaders.readLines headers).request.header k = (lastField k headers).getD [] := by
  have hnil : r.headers = ∅ := by
    obtain ⟨_, _, _, rfl⟩ := requestOfLine_eq hr
    rfl
  rw [readLines_header, HttpRequest.atHeaders, HttpRequest.header, hnil]
  rfl

theorem contentLength_chunks (hr : requestOfLine HttpParser.new.request line = some r)
    (hc : AsksChunks headers) : (r.atHeaders.readLines headers).endOfHeaders.contentLength = 0 := by
  have hte := header_atHeaders hr headers (bytes "Transfer-Encoding")
  obtain ⟨r', hr'⟩ := readLines_frame headers r.atHeaders
  rw [endOfHeaders, if_pos (hte ▸ hc), hr']
  rfl

theorem contentLength_number (hr : requestOfLine HttpParser.new.request line = some r)
    (hc : ¬ AsksChunks headers) {v : Bytes} {n : Nat}
    (hv : lastField (bytes "Content-Length") headers = some v) (hn : Numeral 10 v n)
    (hlt : n < 2 ^ 64) : (r.atHeaders.readLines headers).endOfHeaders.contentLength = n := by
  have hte := header_atHeaders hr headers (bytes "Transfer-Encoding")
  have hcl := header_atHeaders hr headers (bytes "Content-Length")
  rw [hv, Option.getD_some] at hcl
  rw [endOfHeaders, if_neg (hte ▸ hc)]
  simp only [hcl]
  rw [if_pos hn.ne_nil, hn.strtoul (by decide) hlt (by decide) []]
  rfl

end Decision

theorem runFrom_error {p q : HttpParser} (hp : p.state = .error) :
    ∀ {windows : List (Bytes × Bytes)},
      parserMachine.runFrom p (windows.map fun c => .dispatch c.1 c.2) = some q → q = p
  | [], h => by cases h; rfl
  | c :: windows, h => by
    obtain ⟨p', h1, h2⟩ := Machine.runFrom_cons h
    have hstep : (p.dispatch c.1 c.2).toOption.map Prod.fst = some p' := h1
    rw [dispatch_stopped (.inr hp)] at hstep
    cases hstep
    exact runFrom_error hp h2

/-- The parser accepts the head exactly if it is grammatical, takes the length from it, and
after any other head never gets to the end of a request. -/
structure AcceptsExactly (w line : Bytes) (headers : List Bytes) : Prop where
  accepts : (headParsed w).state ≠ .error ↔ Grammatical line headers
  length : Grammatical line headers → ∀ v n, lastField (bytes "Content-Length") headers = some v →
    Numeral 10 v n → (headParsed w).contentLength = n
  safe : ¬ Grammatical line headers → ∀ (windows : List (Bytes × Bytes)) q,
    parserMachine.runFrom (headParsed w) (windows.map fun c => .dispatch c.1 c.2) = some q →
      q.state ≠ .done

/-- **Which heads are parsed as the grammar has it.** Those with fewer than two spaces in the
request line, which are refused, and those in the grammar, unless they ask for chunks and
announce a length as well. -/
theorem accepts_exactly_iff {w : Bytes} {lines : List Bytes} (h : CompleteHead w lines) :
    AcceptsExactly w (lines.headD []) lines.tail ↔
      ¬ TwoSpaces (lines.headD []) ∨ (Grammatical (lines.headD []) lines.tail ∧
        (AsksChunks lines.tail → ∀ v n, lastField (bytes "Content-Length") lines.tail = some v →
          Numeral 10 v n → n = 0)) := by
  by_cases h2 : TwoSpaces (lines.headD [])
  · obtain ⟨r, hr⟩ := Option.ne_none_iff_exists'.mp
      ((requestOfLine_eq_none HttpParser.new.request _).not_left.mpr h2)
    have hparsed : headParsed w = (r.atHeaders.readLines lines.tail).endOfHeaders :=
      h.headParsed_some hr
    have haccept : (headParsed w).state ≠ .error := by
      rw [hparsed]
      rcases endOfHeaders_state (r.atHeaders.readLines lines.tail) with hs | hs | hs <;>
        rw [hs] <;> exact State.noConfusion
    constructor
    · intro hA
      have hG := hA.accepts.mp haccept
      refine .inr ⟨hG, fun hc v n hv hn => ?_⟩
      rw [← hA.length hG v n hv hn, hparsed, contentLength_chunks hr hc]
    · rintro (hno | ⟨hG, hchunks⟩)
      · exact absurd h2 hno
      · refine ⟨iff_of_true haccept hG, fun _ v n hv hn => ?_, fun hno => absurd hG hno⟩
        rw [hparsed]
        by_cases hc : AsksChunks lines.tail
        · rw [contentLength_chunks hr hc, hchunks hc v n hv hn]
        · obtain ⟨m, hm, hlt⟩ := hG.length v hv
          have hmn : m = n := hm.value.symm.trans hn.value
          exact contentLength_number hr hc hv hn (hmn ▸ hlt)
  · have herr := h.headParsed_error h2
    have hG : ¬ Grammatical (lines.headD []) lines.tail := by
      rintro ⟨⟨m, u, v, hline, -⟩, -⟩
      exact h2 ⟨m, u, v, hline⟩
    refine iff_of_true ⟨iff_of_false (not_not_intro herr) hG, fun hg => absurd hg hG, ?_⟩ (.inl h2)
    intro _ windows q hq
    rw [runFrom_error herr hq, herr]
    exact State.noConfusion

theorem post_accepted : AcceptsExactly (bytes "POST / HTTP/1.1\r\nContent-Length: 5\r\n\r\n")
    (bytes "POST / HTTP/1.1") [bytes "Content-Length: 5"] := by
  have h : CompleteHead (bytes "POST / HTTP/1.1\r\nContent-Length: 5\r\n\r\n")
      [bytes "POST / HTTP/1.1", bytes "Content-Length: 5"] := ⟨by decide, [], by decide⟩
  refine (accepts_exactly_iff h).mpr (.inr ⟨⟨?_, by decide, fun v hv => ?_⟩, fun hc => ?_⟩)
  · exact ⟨bytes "POST", bytes "/", bytes "HTTP/1.1", by decide⟩
  · have hfive : lastField (bytes "Content-Length") [bytes "Content-Length: 5"] =
        some (bytes "5") := by decide
    obtain rfl : bytes "5" = v := Option.some.inj (hfive.symm.trans hv)
    exact ⟨5, by decide, by decide⟩
  · refine absurd hc ?_
    unfold AsksChunks
    decide

/-- A body of five bytes is expected behind `Content-Length: 5x`. -/
theorem garbage_length_accepted :
    CompleteHead (bytes "POST / HTTP/1.1\r\nContent-Length: 5x\r\n\r\n")
      [bytes "POST / HTTP/1.1", bytes "Content-Length: 5x"] ∧
    (headParsed (bytes "POST / HTTP/1.1\r\nContent-Length: 5x\r\n\r\n")).contentLength = 5 ∧
    ¬ AcceptsExactly (bytes "POST / HTTP/1.1\r\nContent-Length: 5x\r\n\r\n")
      (bytes "POST / HTTP/1.1") [bytes "Content-Length: 5x"] := by
  refine ⟨⟨by decide, [], by decide⟩, by decide +kernel, fun hA => ?_⟩
  have haccept : (headParsed (bytes "POST / HTTP/1.1\r\nContent-Length: 5x\r\n\r\n")).state ≠
    .error := by decide +kernel
  obtain ⟨n, hn, -⟩ := (hA.accepts.mp haccept).length (bytes "5x") (by decide)
  have hdigit := hn.digits 120 (by decide)
  revert hdigit
  decide

end Hound.Http
