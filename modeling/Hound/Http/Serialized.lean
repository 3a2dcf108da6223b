import Hound.Http.Response
import Hound.Lib.Lines

/-!
# Reading a serialised response back

A handler makes `BuilderCall`s on a default response; the factories make some of them for it
(`factories_built`). When nothing that stands in the head breaks a line (`Clean`), the head is
the status line, a line for every header with the value that was last set for it, and one
for every cookie, and the blank line that ends it is the first one in the text
(`serialize_unambiguous`), whatever the body holds.
-/

namespace Hound.Http

open Lib

/-! ## Numbers -/

theorem decimal_digits (n : Nat) : decimal n = (Nat.toDigits 10 n).map (UInt8.ofNat ·.toNat) := by
  show (Nat.repr n).toList.map _ = _
  rw [Nat.toList_repr]

theorem decimal_negSucc (n : Nat) :
    decimal (.negSucc n) = 45 :: (Nat.toDigits 10 (n + 1)).map (UInt8.ofNat ·.toNat) := by
  show ("-" ++ Nat.repr (n + 1)).toList.map _ = _
  rw [String.toList_append, Nat.toList_repr]
  rfl

theorem ofNat_byte_of_isDigit {c : Char} (h : c.isDigit = true) :
    48 ≤ (UInt8.ofNat c.toNat).toNat ∧ (UInt8.ofNat c.toNat).toNat ≤ 57 ∧
      Char.ofNat (UInt8.ofNat c.toNat).toNat = c := by
  have hrange : 48 ≤ c.toNat ∧ c.toNat ≤ 57 := by
    simpa [Char.isDigit, UInt32.le_iff_toNat_le] using h
  have hbyte : (UInt8.ofNat c.toNat).toNat = c.toNat := by
    rw [UInt8.toNat_ofNat']
    omega
  rw [hbyte]
  exact ⟨hrange.1, hrange.2, Char.ofNat_toNat c⟩

theorem isDigit_of_mem {n : Nat} {c : Char} (h : c ∈ Nat.toDigits 10 n) : c.isDigit = true :=
  Nat.isDigit_of_mem_toDigits (by decide) (by decide) h

theorem decimal_byte {n : Int} {b : Byte} (h : b ∈ decimal n) :
    b = 45 ∨ 48 ≤ b.toNat ∧ b.toNat ≤ 57 := by
  have hdigit : ∀ {k : Nat}, b ∈ (Nat.toDigits 10 k).map (UInt8.ofNat ·.toNat) →
      48 ≤ b.toNat ∧ b.toNat ≤ 57 := by
    intro k hb
    obtain ⟨c, hc, rfl⟩ := List.mem_map.mp hb
    obtain ⟨h1, h2, -⟩ := ofNat_byte_of_isDigit (isDigit_of_mem hc)
    exact ⟨h1, h2⟩
  cases n with
  | ofNat n => exact .inr (hdigit (decimal_digits n ▸ h))
  | negSucc n =>
    rw [decimal_negSucc, List.mem_cons] at h
    exact h.imp_right hdigit

theorem notMem_decimal {n : Int} {b : Byte} (h1 : b ≠ 45) (h2 : b.toNat < 48) : b ∉ decimal n := by
  intro h
  rcases decimal_byte h with hb | hb
  · exact h1 hb
  · omega

theorem toDigits_of_bytes {n m : Nat}
    (h : (Nat.toDigits 10 n).map (UInt8.ofNat ·.toNat) =
      (Nat.toDigits 10 m).map (UInt8.ofNat ·.toNat)) : n = m := by
  have hback : ∀ k : Nat, ((Nat.toDigits 10 k).map (UInt8.ofNat ·.toNat)).map
      (fun b : Byte => Char.ofNat b.toNat) = Nat.toDigits 10 k := by
    intro k
    rw [List.map_map]
    exact (List.map_congr_left fun c hc =>
      (ofNat_byte_of_isDigit (isDigit_of_mem hc)).2.2).trans (List.map_id _)
  have hchars : Nat.toDigits 10 n = Nat.toDigits 10 m := by rw [← hback n, h, hback m]
  rw [← Nat.ofDigitChars_ten_toDigits (n := n), hchars, Nat.ofDigitChars_ten_toDigits]

theorem decimal_injective {n m : Int} (h : decimal n = decimal m) : n = m := by
  have hsign : ∀ k : Nat, (45 : Byte) ∉ decimal (k : Int) := by
    intro k hk
    rw [decimal_digits] at hk
    obtain ⟨c, hc, hb⟩ := List.mem_map.mp hk
    have hge := (ofNat_byte_of_isDigit (isDigit_of_mem hc)).1
    rw [hb] at hge
    exact absurd hge (by decide)
  have hneg : ∀ k : Nat, (45 : Byte) ∈ decimal (.negSucc k) := fun k => by
    rw [decimal_negSucc]
    exact List.mem_cons_self
  cases n with
  | ofNat n =>
    cases m with
    | ofNat m => exact congrArg Int.ofNat (toDigits_of_bytes (by
        rw [← decimal_digits, ← decimal_digits]; exact h))
    | negSucc m => exact absurd (h.symm ▸ hneg m) (hsign n)
  | negSucc n =>
    cases m with
    | ofNat m => exact absurd (h ▸ hneg n) (hsign m)
    | negSucc m =>
      rw [decimal_negSucc, decimal_negSucc, List.cons.injEq] at h
      exact congrArg Int.negSucc (Nat.succ.inj (toDigits_of_bytes h.2))

/-- The number that a text of digits stands for. -/
def number (s : Bytes) : Nat := s.foldl (fun n b => 10 * n + (b.toNat - 48)) 0

theorem number_decimal (n : Nat) : number (decimal n) = n := by
  have hbyte : ∀ c ∈ Nat.toDigits 10 n, (UInt8.ofNat c.toNat).toNat = c.toNat := by
    intro c hc
    have hrange : 48 ≤ c.toNat ∧ c.toNat ≤ 57 := by
      simpa [Char.isDigit, UInt32.le_iff_toNat_le] using isDigit_of_mem hc
    rw [UInt8.toNat_ofNat']
    omega
  rw [decimal_digits, number, List.foldl_map]
  refine Eq.trans ?_ (Nat.ofDigitChars_ten_toDigits (n := n))
  exact List.foldl_ext _ _ 0 fun m c hc => by rw [hbyte c hc]; rfl

/-! ## Builder calls -/

inductive BuilderCall where
  | setStatus (code : Int) (message : Bytes)
  | setHeader (key value : Bytes)
  | setContentType (ct : Bytes)
  | setBody (body : Bytes)
  | appendBody (chunk : Bytes)
  | setCookie (name value path : Bytes) (maxAge : Int) (httpOnly : Bool)
  | setKeepAlive (on : Bool)
  deriving DecidableEq

namespace BuilderCall

def apply (r : HttpResponse) : BuilderCall → HttpResponse
  | setStatus code message => r.setStatus code message
  | setHeader key value => r.setHeader key value
  | setContentType ct => r.setContentType ct
  | setBody body => r.setBody body
  | appendBody chunk => r.appendBody chunk
  | setCookie name value path maxAge httpOnly => r.setCookie name value path maxAge httpOnly
  | setKeepAlive on => r.setKeepAlive on

/-- The header that a call on `r` sets, and the value. -/
def assigns (r : HttpResponse) : BuilderCall → Option (Bytes × Bytes)
  | setStatus .. | setCookie .. => none
  | setHeader key value => some (key, value)
  | setContentType ct => some (bytes "Content-Type", ct)
  | setBody body => some (bytes "Content-Length", decimal body.length)
  | appendBody chunk => some (bytes "Content-Length", decimal (r.body ++ chunk).length)
  | setKeepAlive on =>
    some (bytes "Connection", if on then bytes "keep-alive" else bytes "close")

def cookie : BuilderCall → Option Bytes
  | setCookie name value path maxAge httpOnly =>
    some (name ++ bytes "=" ++ value ++ bytes "; Path=" ++ path ++
      (if 0 < maxAge then bytes "; Max-Age=" ++ decimal maxAge else []) ++
      if httpOnly then bytes "; HttpOnly" else [])
  | _ => none

end BuilderCall

/-- The response that a sequence of calls builds on the default one. -/
def built (calls : List BuilderCall) : HttpResponse := calls.foldl BuilderCall.apply {}

/-- The headers that a sequence of calls on `r` sets, in their order. -/
def assignments : HttpResponse → List BuilderCall → List (Bytes × Bytes)
  | _, [] => []
  | r, call :: calls => (call.assigns r).toList ++ assignments (call.apply r) calls

/-- The last value that is set for `k` is `v`. -/
def LastSet (sets : List (Bytes × Bytes)) (k v : Bytes) : Prop :=
  ∃ before after, sets = before ++ (k, v) :: after ∧ ∀ e ∈ after, e.1 ≠ k

theorem factories_built (body ct location : Bytes) (code : Int) :
    (∃ calls, HttpResponse.ok body ct = built calls) ∧
      (∃ calls, HttpResponse.notFound body = built calls) ∧
      (∃ calls, HttpResponse.internalError body = built calls) ∧
      (∃ calls, HttpResponse.redirect location code = built calls) ∧
      ∃ calls, HttpResponse.json body = built calls := by
  have hok : ∀ ct, ∃ calls, HttpResponse.ok body ct = built calls := by
    intro ct
    by_cases hb : body = []
    · exact ⟨[.setStatus 200 (bytes "OK"), .setContentType ct], if_pos hb⟩
    · exact ⟨[.setStatus 200 (bytes "OK"), .setContentType ct, .setBody body], if_neg hb⟩
  refine ⟨hok ct, ?_, ?_, ?_, hok _⟩
  · exact ⟨[.setStatus 404 (bytes "Not Found"), .setContentType (bytes "text/plain"),
      .setBody body], rfl⟩
  · exact ⟨[.setStatus 500 (bytes "Internal Server Error"),
      .setContentType (bytes "text/plain"), .setBody body], rfl⟩
  · exact ⟨[.setStatus code (if code = 301 then bytes "Moved Permanently" else bytes "Found"),
      .setHeader (bytes "Location") location], rfl⟩

theorem lastSet_concat {sets : List (Bytes × Bytes)} {k v k' v' : Bytes} :
    LastSet (sets ++ [(k', v')]) k v ↔ (k = k' ∧ v = v') ∨ (k ≠ k' ∧ LastSet sets k v) := by
  constructor
  · rintro ⟨before, after, hsets, hafter⟩
    rcases List.eq_nil_or_concat after with rfl | ⟨front, e, rfl⟩
    · obtain ⟨-, he⟩ := List.append_inj' hsets rfl
      cases he
      exact .inl ⟨rfl, rfl⟩
    · have hsplit : sets ++ [(k', v')] = (before ++ (k, v) :: front) ++ [e] := by
        rw [hsets]
        simp
      obtain ⟨hfront, he⟩ := List.append_inj' hsplit rfl
      cases he
      refine .inr ⟨fun hk => hafter (k', v') (by simp) hk.symm, before, front, hfront, ?_⟩
      exact fun e he => hafter e (by simp [he])
  · rintro (⟨rfl, rfl⟩ | ⟨hne, before, after, rfl, hafter⟩)
    · exact ⟨sets, [], rfl, by simp⟩
    · refine ⟨before, after ++ [(k', v')], by simp, fun e he => ?_⟩
      rcases List.mem_append.mp he with he | he
      · exact hafter e he
      · rw [List.mem_singleton.mp he]
        exact fun h => hne h.symm

theorem lookup_apply (r : HttpResponse) (call : BuilderCall) (k : Bytes) :
    (call.apply r).headers.lookup k =
      match call.assigns r with
      | some (key, value) => if k = key then some value else r.headers.lookup k
      | none => r.headers.lookup k := by
  have hinsert : ∀ key value : Bytes, (r.headers.insert key value).lookup k =
      if k = key then some value else r.headers.lookup k := by
    intro key value
    split
    · next hk => rw [hk, AList.lookup_insert]
    · next hk => rw [AList.lookup_insert_ne hk]
  cases call with
  | setStatus code message => rfl
  | setCookie name value path maxAge httpOnly => rfl
  | setHeader key value => exact hinsert key value
  | setContentType ct => exact hinsert _ ct
  | setBody body => exact hinsert _ _
  | appendBody chunk => exact hinsert _ _
  | setKeepAlive on => exact hinsert _ _

theorem lookup_foldl (k v : Bytes) : ∀ (calls : List BuilderCall) (r : HttpResponse)
    (sets : List (Bytes × Bytes)), (∀ v, r.headers.lookup k = some v ↔ LastSet sets k v) →
      ((calls.foldl BuilderCall.apply r).headers.lookup k = some v ↔
        LastSet (sets ++ assignments r calls) k v)
  | [], r, sets, h => by
    rw [assignments, List.append_nil]
    exact h v
  | call :: calls, r, sets, h => by
    rw [List.foldl_cons, assignments, ← List.append_assoc]
    refine lookup_foldl k v calls (call.apply r) _ fun v' => ?_
    rw [lookup_apply]
    cases ha : call.assigns r with
    | none => simpa using h v'
    | some e =>
      obtain ⟨key, value⟩ := e
      simp only [Option.toList_some, lastSet_concat, ← h v']
      by_cases hk : k = key <;> simp [hk, eq_comm]

/-- **The last value set for a key is the one in the map.** -/
theorem lookup_built (calls : List BuilderCall) (k v : Bytes) :
    (built calls).headers.lookup k = some v ↔ LastSet (assignments {} calls) k v := by
  refine lookup_foldl k v calls {} [] fun v' => iff_of_false (by simp) ?_
  rintro ⟨before, after, h, -⟩
  exact absurd h (by simp)

theorem cookies_apply (r : HttpResponse) (call : BuilderCall) :
    (call.apply r).cookies = r.cookies ++ call.cookie.toList := by
  cases call with
  | setCookie name value path maxAge httpOnly =>
    by_cases ha : 0 < maxAge <;> cases httpOnly <;>
      simp [BuilderCall.apply, HttpResponse.setCookie, BuilderCall.cookie, ha]
  | setStatus | setHeader | setContentType | setBody | appendBody | setKeepAlive =>
    exact (List.append_nil _).symm

theorem cookies_built (calls : List BuilderCall) :
    (built calls).cookies = calls.filterMap BuilderCall.cookie := by
  have hfold : ∀ (calls : List BuilderCall) (r : HttpResponse),
      (calls.foldl BuilderCall.apply r).cookies =
        r.cookies ++ calls.filterMap BuilderCall.cookie := by
    intro calls
    induction calls with
    | nil => exact fun r => (List.append_nil _).symm
    | cons call calls ih =>
      intro r
      rw [List.foldl_cons, ih, cookies_apply, List.append_assoc]
      cases h : call.cookie <;> simp [h]
  exact hfold calls {}

/-! ## The text -/

def OneLine (s : Bytes) : Prop := CR ∉ s ∧ LF ∉ s

instance (s : Bytes) : Decidable (OneLine s) := inferInstanceAs (Decidable (_ ∧ _))

namespace HttpResponse

/-- Status message, headers and cookies have no line break in them. -/
structure Clean (r : HttpResponse) : Prop where
  message : OneLine r.statusMessage
  headers : ∀ k v, r.headers.lookup k = some v → OneLine k ∧ OneLine v
  cookies : ∀ c ∈ r.cookies, OneLine c

def statusLine (r : HttpResponse) : Bytes :=
  bytes "HTTP/1.1 " ++ decimal r.statusCode ++ SP :: r.statusMessage

def fieldLine (h : Bytes × Bytes) : Bytes := h.1 ++ bytes ": " ++ h.2

def cookieLine (c : Bytes) : Bytes := bytes "Set-Cookie: " ++ c

def fieldLines (order : HeaderOrder) (r : HttpResponse) : List Bytes :=
  (order.lines r.headers).map fieldLine ++ r.cookies.map cookieLine

def head (order : HeaderOrder) (r : HttpResponse) : Bytes :=
  crlf.intercalate (r.statusLine :: r.fieldLines order)

variable {r r' : HttpResponse} {order order' : HeaderOrder}

theorem serialize_head (order : HeaderOrder) (r : HttpResponse) :
    r.serialize order = r.head order ++ (crlf ++ crlf ++ r.body) := by
  have hlines := flatMap_append_sep crlf r.statusLine (r.fieldLines order)
  rw [head, ← List.append_assoc, ← List.append_assoc, ← hlines]
  simp only [serialize, fieldLines, List.flatMap_cons, List.flatMap_append, List.flatMap_map,
    statusLine, fieldLine, cookieLine, List.append_assoc]

theorem notMem_statusLine (h : r.Clean) : CR ∉ r.statusLine := by
  have hprefix : CR ∉ bytes "HTTP/1.1 " := by decide
  have hcode : CR ∉ decimal r.statusCode := notMem_decimal (by decide) (by decide)
  have hsp : CR ≠ SP := by decide
  simp [statusLine, hprefix, hcode, hsp, h.message.1]

theorem Clean.lines (h : r.Clean) : ∀ l ∈ r.fieldLines order, l ≠ [] ∧ CR ∉ l := by
  intro l hl
  rcases List.mem_append.mp hl with hl | hl
  · obtain ⟨⟨k, v⟩, he, rfl⟩ := List.mem_map.mp hl
    obtain ⟨e, hmem, hkv⟩ := List.mem_map.mp ((order.perm r.headers).mem_iff.mp he)
    cases hkv
    obtain ⟨hk, hv⟩ := h.headers e.1 e.2 (AList.mem_lookup_iff.mpr hmem)
    have hsep : CR ∉ bytes ": " := by decide
    have hne : bytes ": " ≠ [] := by decide
    exact ⟨by simp [fieldLine, hne], by simp [fieldLine, hk.1, hv.1, hsep]⟩
  · obtain ⟨c, hc, rfl⟩ := List.mem_map.mp hl
    have hname : CR ∉ bytes "Set-Cookie: " := by decide
    have hne : bytes "Set-Cookie: " ≠ [] := by decide
    exact ⟨by simp [cookieLine, hne], by simp [cookieLine, hname, (h.cookies c hc).1]⟩

theorem Clean.firstAt (h : r.Clean) (order : HeaderOrder) :
    FirstAt (crlf ++ crlf) (r.serialize order) (r.head order).length := by
  rw [serialize_head]
  exact firstAt_blank (by decide) r.body (notMem_statusLine h) h.lines

theorem head_of_serialize (h : r.Clean) (h' : r'.Clean)
    (he : r'.serialize order' = r.serialize order) :
    r'.head order' = r.head order ∧ r'.body = r.body := by
  have hlen := FirstAt.unique (he ▸ h'.firstAt order') (h.firstAt order)
  rw [serialize_head, serialize_head] at he
  obtain ⟨hhead, hrest⟩ := List.append_inj he hlen
  exact ⟨hhead, List.append_cancel_left hrest⟩

/-- The head begins with the number of the status, and a space behind it. -/
theorem head_eq (order : HeaderOrder) (r : HttpResponse) :
    ∃ rest, r.head order = bytes "HTTP/1.1 " ++ (decimal r.statusCode ++ SP :: rest) := by
  unfold head statusLine
  cases r.fieldLines order with
  | nil => exact ⟨r.statusMessage, by simp⟩
  | cons l ls => exact ⟨r.statusMessage ++ crlf ++ crlf.intercalate (l :: ls), by simp⟩

theorem statusCode_of_head (he : r'.head order' = r.head order) : r'.statusCode = r.statusCode := by
  obtain ⟨rest, hr⟩ := head_eq order r
  obtain ⟨rest', hr'⟩ := head_eq order' r'
  rw [hr, hr'] at he
  have hcode := List.append_cancel_left he
  have hsp : ∀ n : Int, SP ∉ decimal n := fun n => notMem_decimal (by decide) (by decide)
  have hlen := congrArg (List.idxOf? SP) hcode
  rw [idxOf?_append_cons _ (hsp _), idxOf?_append_cons _ (hsp _), Option.some.injEq] at hlen
  exact decimal_injective (List.append_inj hcode hlen).1

end HttpResponse

open HttpResponse

/-- **A serialised response can be read in one way only.** Behind the first blank line stands
the body; in front of it the status line, one line with the last value for every header that
was set, in any order, and one line for every cookie. Status and body are those of every
response with that text. -/
theorem serialize_unambiguous {calls : List BuilderCall} (hclean : (built calls).Clean)
    (order : HeaderOrder) :
    (∃ (i : Nat) (fields : List (Bytes × Bytes)),
        FirstAt (crlf ++ crlf) ((built calls).serialize order) i ∧
        ((built calls).serialize order).drop (i + 4) = (built calls).body ∧
        ((built calls).serialize order).take i = crlf.intercalate ((built calls).statusLine ::
          (fields.map fieldLine ++ (calls.filterMap BuilderCall.cookie).map cookieLine)) ∧
        (fields.map Prod.fst).Nodup ∧
        ∀ k v, (k, v) ∈ fields ↔ LastSet (assignments {} calls) k v) ∧
      ∀ {calls' : List BuilderCall} {order' : HeaderOrder}, (built calls').Clean →
        (built calls').serialize order' = (built calls).serialize order →
        (built calls').statusCode = (built calls).statusCode ∧
          (built calls').body = (built calls).body := by
  refine ⟨⟨_, order.lines (built calls).headers, hclean.firstAt order, ?_, ?_, ?_, fun k v => ?_⟩,
    fun hclean' he => ?_⟩
  · rw [serialize_head, List.drop_length_add_append]
    rfl
  · rw [serialize_head, List.take_left, head, fieldLines, cookies_built]
  · have hkeys := ((order.perm (built calls).headers).map Prod.fst).nodup_iff
    rw [hkeys, List.map_map]
    exact (built calls).headers.nodupKeys
  · rw [(order.perm _).mem_iff, ← lookup_built, ← Option.mem_def, AList.mem_lookup_iff]
    constructor
    · intro hmem
      obtain ⟨e, he, hkv⟩ := List.mem_map.mp hmem
      cases hkv
      exact he
    · exact fun hmem => List.mem_map.mpr ⟨⟨k, v⟩, hmem, rfl⟩
  · obtain ⟨hhead, hbody⟩ := head_of_serialize hclean hclean' he
    exact ⟨statusCode_of_head hhead, hbody⟩

/-- A header that is set twice, two cookies, and a blank line in the body. -/
def twice : List BuilderCall :=
  [.setHeader (bytes "X") (bytes "1"), .setCookie (bytes "a") (bytes "b") (bytes "/") 0 true,
    .setBody (crlf ++ crlf), .setHeader (bytes "X") (bytes "2"),
    .setCookie (bytes "c") [] (bytes "/") 60 false]

theorem serialize_unambiguous_twice :
    ∃ i, FirstAt (crlf ++ crlf) ((built twice).serialize .inserted) i ∧
      ((built twice).serialize .inserted).drop (i + 4) = crlf ++ crlf := by
  have hclean : (built twice).Clean := by
    refine ⟨by decide, fun k v h => ?_, by decide +kernel⟩
    have hall : ∀ e ∈ (built twice).headers.entries, OneLine e.1 ∧ OneLine e.2 := by
      decide +kernel
    exact hall _ (AList.mem_lookup_iff.mp h)
  obtain ⟨⟨i, fields, hfirst, hbody, -⟩, -⟩ := serialize_unambiguous hclean .inserted
  exact ⟨i, hfirst, hbody⟩

end Hound.Http
