import Mathlib.Data.List.TakeWhile
import Hound.Http.SelfDelimiting
import Hound.Http.Serialized
import Hound.Lib.LetterCase
import Hound.Lib.Reader

/-!
# A client

The other end of a connection, as a client would read it: a line at a time up to an empty one, then
as many bytes as `Content-Length` says, in whatever case the name is written. Nothing of it is
translated from the source. `client_reads`: of the responses that a server has written one behind
the other, a client reads those that have arrived in full, as they were written, whatever their
bodies hold and wherever the stream is cut; provided they are `Readable`.
-/

namespace Hound.Http

open Lib

/-- A line that ends in CRLF, and what follows it. -/
def readLine : Bytes → Option (Bytes × Bytes)
  | a :: b :: w =>
    if a = CR ∧ b = LF then some ([], w) else (readLine (b :: w)).map fun r => (a :: r.1, r.2)
  | _ => none

theorem readLine_spec : ∀ {w : Bytes} {r : Bytes × Bytes}, readLine w = some r →
    w = r.1 ++ crlf ++ r.2 ∧ ∀ x, readLine (w ++ x) = some (r.1, r.2 ++ x)
  | a :: b :: w, r, h => by
    rw [readLine] at h
    split at h
    · next he =>
      cases h
      obtain ⟨rfl, rfl⟩ := he
      exact ⟨rfl, fun x => if_pos ⟨rfl, rfl⟩⟩
    · next hgo =>
      obtain ⟨r', hr', rfl⟩ := Option.map_eq_some_iff.mp h
      obtain ⟨hw, hmore⟩ := readLine_spec hr'
      refine ⟨by rw [hw]; rfl, fun x => ?_⟩
      have hx := hmore x
      rw [List.cons_append] at hx
      rw [List.cons_append, List.cons_append, readLine, if_neg hgo, hx]
      rfl

/-- Lines, without their CRLF. -/
def line : Reader Byte Bytes where
  read := readLine
  suffix h := ⟨_, (readLine_spec h).1.symm⟩
  stable h := (readLine_spec h).2

theorem line_eager : line.Eager := fun w rest b h => by
  have hw := congrArg List.length (readLine_spec h).1
  simp only [List.length_append, List.length_cons, List.length_nil] at hw
  omega

theorem line_undoes : line.Undoes (· ++ crlf) id (CR ∉ ·) := by
  intro l hl rest
  induction l with
  | nil => rfl
  | cons a l ih =>
    obtain ⟨hne, hl⟩ := not_or.mp (mt List.mem_cons.mpr hl)
    have ih : readLine (l ++ crlf ++ rest) = some (l, rest) := ih hl
    show readLine (a :: (l ++ crlf ++ rest)) = some (a :: l, rest)
    obtain ⟨b, w, hw⟩ := List.exists_cons_of_ne_nil (show l ++ crlf ++ rest ≠ [] by simp)
    rw [hw] at ih ⊢
    rw [readLine, if_neg fun h => hne h.1.symm, ih]
    rfl

/-! ## Header fields -/

/-- The name of a field: what stands in front of the colon. -/
def nameOf (l : Bytes) : Bytes := l.takeWhile (· ≠ 58)

def valueOf (l : Bytes) : Bytes := ((l.dropWhile (· ≠ 58)).drop 1).dropWhile (· = SP)

def IsLength (l : Bytes) : Prop := lower (nameOf l) = lower contentLength

instance (l : Bytes) : Decidable (IsLength l) := inferInstanceAs (Decidable (_ = _))

/-- What `Content-Length` says. -/
def lengthOf (fields : List Bytes) : Option Nat :=
  (fields.find? (IsLength ·)).map fun l => number (valueOf l)

structure Reply where
  statusLine : Bytes
  fields : List Bytes
  body : Bytes
  deriving DecidableEq

def replyBody : List Bytes → Reader Byte Reply
  | [] => .fail
  | statusLine :: fields =>
    match lengthOf fields with
    | none => .fail
    | some n => (Reader.take n).map (Reply.mk statusLine fields)

def readReply : Reader Byte Reply := (Reader.upTo line line_eager (· = [])).bind replyBody

theorem readReply_eager : readReply.Eager := Reader.upTo_eager.bind replyBody

/-- What a client has read of the bytes `w`, and what it goes on from. -/
def readReplies (w : Bytes) : List Reply × Bytes := Reader.readAll readReply readReply_eager w

/-! ## What can be read -/

namespace HttpResponse

variable {r : HttpResponse} {order : HeaderOrder}

/-- Nothing in the head breaks a line, no header name has a colon or is `Content-Length` in another
spelling. -/
structure Tidy (r : HttpResponse) : Prop extends r.Clean where
  names : ∀ k v, r.headers.lookup k = some v → 58 ∉ k ∧
    (lower k = lower contentLength → k = contentLength)

/-- A response that a client can read. -/
def Readable (r : HttpResponse) : Prop :=
  r.Tidy ∧ r.headers.lookup contentLength = some (decimal r.body.length)

/-- What a client should read. -/
def seen (order : HeaderOrder) (r : HttpResponse) : Reply :=
  ⟨r.statusLine, r.fieldLines order, r.body⟩

theorem tidy_default : ({} : HttpResponse).Tidy where
  message := by decide
  headers _ _ h := by cases h
  cookies := List.forall_mem_nil _
  names _ _ h := by cases h

theorem Tidy.setHeader (h : r.Tidy) {key value : Bytes} (hkey : OneLine key ∧ 58 ∉ key)
    (hname : lower key = lower contentLength → key = contentLength) (hvalue : OneLine value) :
    (r.setHeader key value).Tidy where
  message := h.message
  cookies := h.cookies
  headers k v hk := by
    by_cases he : k = key
    · subst he
      rw [HttpResponse.setHeader, AList.lookup_insert, Option.some.injEq] at hk
      exact ⟨hkey.1, hk ▸ hvalue⟩
    · exact h.headers k v ((AList.lookup_insert_ne he).symm.trans hk)
  names k v hk := by
    by_cases he : k = key
    · exact he ▸ ⟨hkey.2, hname⟩
    · exact h.names k v ((AList.lookup_insert_ne he).symm.trans hk)

theorem oneLine_decimal (n : Int) : OneLine (decimal n) :=
  ⟨notMem_decimal (by decide) (by decide), notMem_decimal (by decide) (by decide)⟩

theorem Tidy.setBody (h : r.Tidy) (body : Bytes) : (r.setBody body).Readable :=
  ⟨Tidy.setHeader (r := { r with body }) ⟨⟨h.message, h.headers, h.cookies⟩, h.names⟩
    (by decide) (fun _ => rfl) (oneLine_decimal _), AList.lookup_insert _⟩

theorem readable_notFound (body : Bytes) : (notFound body).Readable :=
  Tidy.setBody (Tidy.setHeader (r := { statusCode := 404, statusMessage := bytes "Not Found" })
    ⟨⟨by decide, tidy_default.headers, tidy_default.cookies⟩, tidy_default.names⟩
    (by decide) (by decide) (by decide)) body

theorem readable_ok {body ct : Bytes} (hbody : body ≠ []) (hct : OneLine ct) :
    (ok body ct).Readable := by
  have htidy : (({} : HttpResponse).setContentType ct).Tidy :=
    tidy_default.setHeader (by decide) (by decide) hct
  unfold ok
  simp only [if_neg hbody]
  exact Tidy.setBody htidy body

theorem Readable.setKeepAlive (h : r.Readable) (on : Bool) : (r.setKeepAlive on).Readable := by
  have hne : contentLength ≠ bytes "Connection" := by decide
  refine ⟨h.1.setHeader (by decide) (by decide) ?_, (AList.lookup_insert_ne hne).trans h.2⟩
  cases on <;> decide

theorem nameOf_fieldLine {k : Bytes} (hk : 58 ∉ k) (v : Bytes) :
    nameOf (fieldLine (k, v)) = k := by
  have hall : ∀ b ∈ k, decide (b ≠ 58) = true := fun b hb => decide_eq_true fun h => hk (h ▸ hb)
  rw [nameOf, fieldLine, List.append_assoc, List.takeWhile_append_of_pos hall]
  exact List.append_nil k

theorem valueOf_fieldLine {k : Bytes} (hk : 58 ∉ k) (v : Bytes) :
    valueOf (fieldLine (k, v)) = v.dropWhile (· = SP) := by
  have hall : ∀ b ∈ k, decide (b ≠ 58) = true := fun b hb => decide_eq_true fun h => hk (h ▸ hb)
  rw [valueOf, fieldLine, List.append_assoc, List.dropWhile_append_of_pos hall]
  rfl

theorem not_isLength_cookieLine (c : Bytes) : ¬ IsLength (cookieLine c) := by
  have hname : nameOf (cookieLine c) = bytes "Set-Cookie" := by
    have hall : ∀ b ∈ bytes "Set-Cookie", decide (b ≠ 58) = true := by decide +kernel
    have hline : cookieLine c = bytes "Set-Cookie" ++ (bytes ": " ++ c) := by
      rw [← List.append_assoc]
      rfl
    rw [nameOf, hline, List.takeWhile_append_of_pos hall]
    exact List.append_nil _
  rw [IsLength, hname]
  decide

theorem Readable.lengthOf (h : r.Readable) (order : HeaderOrder) :
    lengthOf (r.fieldLines order) = some r.body.length := by
  obtain ⟨htidy, hlookup⟩ := h
  have hcolon : (58 : Byte) ∉ contentLength := by decide
  have hmem : fieldLine (contentLength, decimal r.body.length) ∈ r.fieldLines order := by
    refine List.mem_append_left _ (List.mem_map_of_mem ((order.perm r.headers).mem_iff.mpr ?_))
    exact List.mem_map.mpr ⟨_, AList.mem_lookup_iff.mp hlookup, rfl⟩
  have hlength : IsLength (fieldLine (contentLength, decimal r.body.length)) := by
    rw [IsLength, nameOf_fieldLine hcolon]
  have honly : ∀ l ∈ r.fieldLines order, IsLength l →
      l = fieldLine (contentLength, decimal r.body.length) := by
    intro l hl hl'
    rcases List.mem_append.mp hl with hl | hl
    · obtain ⟨⟨k, v⟩, he, rfl⟩ := List.mem_map.mp hl
      obtain ⟨⟨k', v'⟩, hentry, hkv⟩ := List.mem_map.mp ((order.perm r.headers).mem_iff.mp he)
      cases hkv
      have hk : v' ∈ r.headers.lookup k' := AList.mem_lookup_iff.mpr hentry
      obtain ⟨hcolon', hspelling⟩ := htidy.names k' v' hk
      rw [IsLength, nameOf_fieldLine hcolon'] at hl'
      obtain rfl := hspelling hl'
      rw [hlookup] at hk
      cases hk
      rfl
    · obtain ⟨c, -, rfl⟩ := List.mem_map.mp hl
      exact absurd hl' (not_isLength_cookieLine c)
  unfold Http.lengthOf
  cases hfind : (r.fieldLines order).find? (IsLength ·) with
  | none => exact absurd hlength (by simpa using List.find?_eq_none.mp hfind _ hmem)
  | some l =>
    have hl : IsLength l := by simpa using List.find?_some hfind
    rw [honly l (List.mem_of_find?_eq_some hfind) hl, Option.map_some,
      valueOf_fieldLine hcolon]
    have hdigits : (decimal r.body.length).dropWhile (· = SP) = decimal r.body.length := by
      rw [List.dropWhile_eq_self_iff]
      intro h0 hsp
      have hin := List.getElem_mem h0
      rw [of_decide_eq_true hsp] at hin
      exact notMem_decimal (by decide) (by decide) hin
    rw [hdigits, number_decimal]

end HttpResponse

open HttpResponse

theorem readReply_undoes (order : HeaderOrder) :
    readReply.Undoes (HttpResponse.serialize order) (seen order) Readable := by
  intro r hr rest
  have hclean := hr.1.toClean
  have hlines : ∀ l ∈ r.statusLine :: r.fieldLines order, CR ∉ l ∧ decide (l = []) = false := by
    intro l hl
    rcases List.mem_cons.mp hl with rfl | hl
    · refine ⟨notMem_statusLine hclean, ?_⟩
      simp [statusLine, bytes]
    · obtain ⟨hne, hcr⟩ := hclean.lines l hl
      exact ⟨hcr, by simpa using hne⟩
  have htext : r.serialize order = (r.statusLine :: r.fieldLines order).flatMap (· ++ crlf) ++
      (([] ++ crlf) ++ r.body) := by
    rw [flatMap_append_sep, ← head, serialize_head]
    simp only [List.append_assoc, List.nil_append]
  have hhead : (Reader.upTo line line_eager (· = [])).read
      ((r.statusLine :: r.fieldLines order).flatMap (· ++ crlf) ++
        (([] ++ crlf) ++ (r.body ++ rest))) = some (r.statusLine :: r.fieldLines order,
          r.body ++ rest) :=
    line_undoes.upTo (List.not_mem_nil (a := CR)) rfl _ hlines
  show ((Reader.upTo line line_eager (· = [])).read _).bind _ = _
  rw [htext, List.append_assoc, List.append_assoc, hhead]
  simp only [Option.bind_some, replyBody, hr.lengthOf order]
  show ((Reader.take _).read _).map _ = _
  rw [Reader.take_read]
  rfl

theorem readReplies_part {rs : List HttpResponse} {order : HeaderOrder} (hrs : ∀ r ∈ rs, r.Readable)
    {w : Bytes} (hw : w <+: rs.flatMap (·.serialize order)) :
    ∃ done left part, rs = done ++ left ∧ readReplies w = (done.map (seen order), part) ∧
      w = done.flatMap (·.serialize order) ++ part ∧ readReply.read part = none :=
  (readReply_undoes order).readAll_part hrs hw

/-- **What a client has read.** However the stream of some responses is cut: the ones that have
arrived in full, as the server built them, and the rest is not in full. -/
theorem client_reads {rs : List HttpResponse} {order : HeaderOrder} (hrs : ∀ r ∈ rs, r.Readable)
    {w : Bytes} (hw : w <+: rs.flatMap (·.serialize order)) :
    ∃ done left part, rs = done ++ left ∧ readReplies w = (done.map (seen order), part) ∧
      w = done.flatMap (·.serialize order) ++ part ∧
      ∀ r ∈ left.head?, ¬ r.serialize order <+: part := by
  obtain ⟨done, left, part, rfl, hall, hsplit, hwait⟩ := readReplies_part hrs hw
  refine ⟨done, left, part, rfl, hall, hsplit, fun r hr hp => ?_⟩
  obtain ⟨rest, rfl⟩ := hp
  rw [readReply_undoes order (hrs r (List.mem_append_right _ (List.mem_of_mem_head? hr)))] at hwait
  cases hwait

/-- Two responses, the first with a blank line in its body, and the stream cut in the second. -/
theorem client_reads_cut :
    ∃ done left part, [notFound (crlf ++ crlf), notFound []] = done ++ left ∧
      readReplies
          (([notFound (crlf ++ crlf), notFound []].flatMap (·.serialize .inserted)).take 100) =
        (done.map (seen .inserted), part) ∧ done.length = 1 := by
  have hrs : ∀ r ∈ [notFound (crlf ++ crlf), notFound []], r.Readable := by
    rintro _ (_ | ⟨_, _ | ⟨_, ⟨⟩⟩⟩)
    · exact readable_notFound _
    · exact readable_notFound _
  have hcut : ([notFound (crlf ++ crlf), notFound []].flatMap (·.serialize .inserted)).take 100 <+:
      [notFound (crlf ++ crlf), notFound []].flatMap (·.serialize .inserted) := List.take_prefix _ _
  obtain ⟨done, left, part, hsplit, hreplies, -⟩ := client_reads hrs hcut
  have hone : (readReplies (([notFound (crlf ++ crlf), notFound []].flatMap
    (·.serialize .inserted)).take 100)).1.length = 1 := by decide +kernel
  rw [hreplies, List.length_map] at hone
  exact ⟨done, left, part, hsplit, hreplies, hone⟩

end Hound.Http
