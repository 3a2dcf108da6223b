import Hound.Http.HeadGrammar
import Hound.Lib.LetterCase

/-!
# Header names in another case

`add_header` and `header` compare names byte by byte, and the parser and the request ask for
one spelling of each name. `ignores_case_iff` says for which heads the spelling is of no
consequence: for those that give no value to a name with a letter in it.
-/

namespace Hound.Http

open Lib HttpParser

def HasLetter (s : Bytes) : Prop := ∃ b ∈ s, IsLetter b

instance (s : Bytes) : Decidable (HasLetter s) := inferInstanceAs (Decidable (∃ b ∈ s, IsLetter b))

/-- The headers have the same values under names that differ in the case of letters alone. -/
def SameNames : List (Bytes × Bytes) → List (Bytes × Bytes) → Prop :=
  List.Forall₂ fun a b => lower a.1 = lower b.1 ∧ a.2 = b.2

/-- What is left of `h` when the case of letters in header names is changed. -/
structure Head.Recased (h g : Head) : Prop where
  method : g.method = h.method
  path : g.path = h.path
  version : g.version = h.version
  headers : SameNames h.headers g.headers

/-- Nothing that is read off the parser behind a head tells `p` from `q`, if names of headers
are looked up in any case. -/
structure SameParse (p q : HttpParser) : Prop where
  state : q.state = p.state
  length : q.contentLength = p.contentLength
  keepAlive : q.request.finalize.keepAlive = p.request.finalize.keepAlive
  header : ∀ k k', lower k = lower k' → q.request.header k' = p.request.header k
  cookie : ∀ name, q.request.cookie name = p.request.cookie name
  formData : ∀ body, { q.request with body := body }.formData =
    { p.request with body := body }.formData

namespace Head

variable {h g : Head}

theorem headParsed_encode (h : Head) (rest : Bytes) : headParsed (h.encode ++ rest) = h.parsed := by
  have hline : h.lineParsed.state = .headers := rfl
  rw [headParsed, h.parseRequestLine_encode rest]
  simp only [h.drop_requestLine, h.parseHeaders_lineParsed rest]
  rw [if_pos hline]

end Head

/-! ## Names of one case class -/

section SameNames

variable {as bs : List (Bytes × Bytes)}

theorem SameNames.forall_mem {P : Bytes × Bytes → Prop} (h : SameNames as bs)
    (hP : ∀ a b : Bytes × Bytes, lower a.1 = lower b.1 ∧ a.2 = b.2 → P a → P b)
    (ha : ∀ a ∈ as, P a) : ∀ b ∈ bs, P b := by
  induction h with
  | nil => exact ha
  | cons hab _ ih =>
    obtain ⟨h1, h2⟩ := List.forall_mem_cons.mp ha
    exact List.forall_mem_cons.mpr ⟨hP _ _ hab h1, ih h2⟩

theorem SameNames.lookup_eq (h : SameNames as bs) {k : Bytes} (hk : ¬ HasLetter k) :
    as.lookup k = bs.lookup k := by
  have hk' : ∀ b ∈ k, ¬ IsLetter b := fun b hb hl => hk ⟨b, hb, hl⟩
  induction h with
  | nil => rfl
  | @cons a b as bs hab _ ih =>
    have hname : (k == a.1) = (k == b.1) := by
      rw [Bool.eq_iff_iff, beq_iff_eq, beq_iff_eq]
      constructor
      · rintro rfl
        exact (eq_of_lower_eq hk' hab.1.symm).symm
      · rintro rfl
        exact (eq_of_lower_eq hk' hab.1).symm
    rw [List.lookup_cons, List.lookup_cons, hname, hab.2, ih]

theorem headerOk_of_lower_eq {a b : Bytes × Bytes} (hab : lower a.1 = lower b.1 ∧ a.2 = b.2)
    (ha : HeaderOk a) : HeaderOk b := by
  obtain ⟨hname, hvalue⟩ := hab
  unfold HeaderOk at *
  rw [← hvalue, ← mem_of_lower_eq (by decide) hname, ← mem_of_lower_eq (by decide) hname,
    ← mem_of_lower_eq (by decide) hname]
  exact ha

end SameNames

namespace Head

variable {h g : Head}

theorem exists_recased (h : Head) {hs : List (Bytes × Bytes)} (hhs : SameNames h.headers hs) :
    ∃ g : Head, h.Recased g ∧ g.headers = hs :=
  ⟨{ h with
      headers := hs
      headers_ok := hhs.forall_mem (fun _ _ => headerOk_of_lower_eq) h.headers_ok },
    ⟨rfl, rfl, rfl, hhs⟩, rfl⟩

/-- No name with a letter in it has a value. -/
def Caseless (h : Head) : Prop := ∀ l ∈ h.headers, HasLetter l.1 → l.2 = []

theorem Caseless.value_eq_nil (hc : h.Caseless) {k : Bytes} (hk : HasLetter k) :
    h.value k = [] := by
  unfold value
  cases hl : h.headers.reverse.lookup k with
  | none => rfl
  | some v =>
    obtain ⟨l₁, l₂, hsplit, -⟩ := List.lookup_eq_some_iff.mp hl
    have hm : (k, v) ∈ h.headers := by
      rw [← List.mem_reverse, hsplit]
      exact List.mem_append_right l₁ List.mem_cons_self
    exact hc _ hm hk

theorem Recased.caseless (hr : h.Recased g) (hc : h.Caseless) : g.Caseless := by
  refine hr.headers.forall_mem (P := fun l => HasLetter l.1 → l.2 = []) (fun a b hab ha hb => ?_) hc
  rw [← hab.2]
  exact ha (exists_letter_of_lower_eq hab.1.symm hb)

theorem Recased.value_eq (hr : h.Recased g) (hc : h.Caseless) {k k' : Bytes}
    (hk : lower k = lower k') : g.value k' = h.value k := by
  by_cases hl : HasLetter k
  · rw [hc.value_eq_nil hl, (hr.caseless hc).value_eq_nil (exists_letter_of_lower_eq hk hl)]
  · obtain rfl : k' = k := eq_of_lower_eq (fun b hb hb' => hl ⟨b, hb, hb'⟩) hk.symm
    have hrev : SameNames h.headers.reverse g.headers.reverse :=
      List.forall₂_reverse_iff.mpr hr.headers
    rw [value, value, hrev.lookup_eq hl]

theorem Caseless.parsed_eq (hc : h.Caseless) :
    h.parsed = { HttpParser.new with request := h.request, state := .done } := by
  refine parsed_no_body ?_ (hc.value_eq_nil (by decide))
  unfold Chunked
  rw [hc.value_eq_nil (by decide)]
  decide

theorem Recased.sameParse (hr : h.Recased g) (hc : h.Caseless) : SameParse h.parsed g.parsed := by
  have hvalue (k : Bytes) : g.request.header k = h.request.header k := by
    rw [request_header, request_header, hr.value_eq hc rfl]
  rw [hc.parsed_eq, (hr.caseless hc).parsed_eq]
  refine ⟨rfl, rfl, ?_, fun k k' hk => ?_, fun name => ?_, fun body => ?_⟩
  · rw [HttpRequest.finalize_keepAlive, HttpRequest.finalize_keepAlive]
    simp only [HttpRequest.finalKeepAlive, hvalue, request_version, hr.version]
  · simpa using hr.value_eq hc hk
  · simp only [HttpRequest.cookie, hvalue]
  · have hct : HttpRequest.header { g.request with body := body } (bytes "Content-Type") =
        HttpRequest.header { h.request with body := body } (bytes "Content-Type") := hvalue _
    simp only [HttpRequest.formData, hct]

/-! ## Telling a change of case -/

def lowered (l : Bytes × Bytes) : Bytes × Bytes := (lower l.1, l.2)

theorem sameNames_lowered (hs : List (Bytes × Bytes)) : SameNames hs (hs.map lowered) := by
  refine List.forall₂_map_right_iff.mpr (List.forall₂_same.mpr fun l _ => ?_)
  exact ⟨lower_lower.symm, rfl⟩

theorem upper_not_lowered {s v : Bytes} (hs : HasLetter s) (ls : List (Bytes × Bytes)) :
    (upper s, v) ∉ ls.map lowered := by
  intro hm
  obtain ⟨l, -, hl⟩ := List.mem_map.mp hm
  exact upper_ne_lower hs (congrArg Prod.fst hl).symm

/-- If one name alone is changed to upper case, and the others to lower case, its value is
found under the upper case name. -/
theorem value_upper {as bs : List (Bytes × Bytes)} {l : Bytes × Bytes}
    (hg : g.headers = as.map lowered ++ (upper l.1, l.2) :: bs.map lowered) (hl : HasLetter l.1) :
    g.value (upper l.1) = l.2 := by
  have hlookup : g.headers.reverse.lookup (upper l.1) = some l.2 := by
    refine List.lookup_eq_some_iff.mpr
      ⟨(bs.map lowered).reverse, (as.map lowered).reverse, by simp [hg], fun p hp => ?_⟩
    rw [bne_iff_ne]
    rintro hname
    have hm : (upper l.1, p.2) ∈ bs.map lowered := by
      rw [hname]
      exact List.mem_reverse.mp hp
    exact upper_not_lowered hl bs hm
  rw [value, hlookup]
  rfl

/-- Two changes of case that differ in one name tell a value apart. -/
theorem caseless_of_header (h : Head)
    (hsame : ∀ g, h.Recased g → ∀ k, g.value k = h.value k) : h.Caseless := by
  intro l hm hl
  obtain ⟨as, bs, hsplit⟩ := List.append_of_mem hm
  have hone : SameNames h.headers (as.map lowered ++ (upper l.1, l.2) :: bs.map lowered) := by
    rw [hsplit]
    refine List.rel_append (sameNames_lowered as) (.cons ⟨lower_upper.symm, rfl⟩ ?_)
    exact sameNames_lowered bs
  obtain ⟨g, hg, hgs⟩ := h.exists_recased hone
  obtain ⟨g', hg', hgs'⟩ := h.exists_recased (sameNames_lowered h.headers)
  calc l.2 = g.value (upper l.1) := (value_upper hgs hl).symm
    _ = h.value (upper l.1) := hsame g hg _
    _ = g'.value (upper l.1) := (hsame g' hg' _).symm
    _ = [] := value_of_not_listed g' fun v => hgs' ▸ upper_not_lowered hl h.headers

end Head

/-- **Exactly when letter case is ignored.** The parser and the accessors take every change of
case in the names of `h` alike if and only if no name with a letter in it has a value. -/
theorem ignores_case_iff (h : Head) :
    (∀ g, h.Recased g → ∀ rest,
      SameParse (headParsed (h.encode ++ rest)) (headParsed (g.encode ++ rest))) ↔
    ∀ l ∈ h.headers, HasLetter l.1 → l.2 = [] := by
  simp only [Head.headParsed_encode]
  constructor
  · intro hall
    refine h.caseless_of_header fun g hg k => ?_
    have hk := (hall g hg []).header k k rfl
    rwa [Head.parsed_request, Head.parsed_request, Head.request_header, Head.request_header] at hk
  · exact fun hc g hg _ => hg.sameParse hc

/-- The body of a `POST` is parsed as the next request if its length is spelled
`content-length`. -/
theorem lower_case_unframed : ∃ h g : Head, h.Recased g ∧
    h.encode = bytes "POST / HTTP/1.1\r\nContent-Length: 5\r\n\r\n" ∧
    g.encode = bytes "POST / HTTP/1.1\r\ncontent-length: 5\r\n\r\n" ∧
    (headParsed h.encode).state = .body ∧ (headParsed g.encode).state = .done ∧
    ¬ SameParse (headParsed h.encode) (headParsed g.encode) := by
  let h : Head := {
    method := bytes "POST", path := bytes "/", version := bytes "HTTP/1.1"
    headers := [(bytes "Content-Length", bytes "5")]
    method_ok := by decide, path_ok := by decide, version_ok := by decide
    headers_ok := by decide }
  have hnames : SameNames h.headers [(bytes "content-length", bytes "5")] :=
    .cons ⟨by decide, rfl⟩ .nil
  obtain ⟨g, hg, hgs⟩ := h.exists_recased hnames
  have henc : g.encode = bytes "POST / HTTP/1.1\r\ncontent-length: 5\r\n\r\n" := by
    rw [Head.encode, hg.method, hg.path, hg.version, hgs]
    decide
  have hbody : (headParsed h.encode).state = .body := by decide +kernel
  have hdone : (headParsed g.encode).state = .done := by
    rw [henc]
    decide +kernel
  refine ⟨h, g, hg, by decide, henc, hbody, hdone, fun hsame => ?_⟩
  have hstate := hsame.state
  rw [hbody, hdone] at hstate
  cases hstate

end Hound.Http
