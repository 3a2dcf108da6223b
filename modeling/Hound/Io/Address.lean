import Hound.Http.Serialized

/-!
# `Address`

An IP address and its port (`io/address.h`, `.cpp`). `Netdb` is what the C library says of texts
and names. `to_string` puts an IPv6 address in brackets, and `resolve` takes what stands behind the
last `':'` for the port, so that one reads what the other writes (`resolve_toString`). `parse`
leaves a text that is no number to `resolve`, with the port behind it (`parse_eq`).
-/

namespace Hound

open Http

/-- A `sockaddr_storage`, by its `ss_family`. The ports are in network byte order. -/
inductive SockAddr where
  | other
  | inet (sinAddr : BitVec 32) (sinPort : UInt16)
  | inet6 (sin6Addr : BitVec 128) (sin6Port : UInt16) (flowinfo scopeId : UInt32)
  deriving DecidableEq

structure Address where
  storage : SockAddr := .other
  socklen : Nat := 0
  deriving DecidableEq

/-- `inet_pton`, `inet_ntop` and `getaddrinfo`. -/
structure Netdb where
  pton4 : Bytes → Option (BitVec 32)
  pton6 : Bytes → Option (BitVec 128)
  ntop4 : BitVec 32 → Bytes
  ntop6 : BitVec 128 → Bytes
  /-- The list of results, when the return value is 0. -/
  getaddrinfo : Bytes → Bytes → Option (List Address)

/-- To network byte order, on a host with the low byte first. -/
def htons (p : UInt16) : UInt16 := .ofNat (p.toNat % 256 * 256 + p.toNat / 256)

def ntohs (p : UInt16) : UInt16 := htons p

theorem toNat_htons (p : UInt16) : (htons p).toNat = p.toNat % 256 * 256 + p.toNat / 256 := by
  have hp : p.toNat < 2 ^ 16 := p.toNat_lt
  rw [htons, UInt16.toNat_ofNat']
  exact Nat.mod_eq_of_lt (by omega)

theorem htons_htons (p : UInt16) : htons (htons p) = p := by
  have hp : p.toNat < 2 ^ 16 := p.toNat_lt
  apply UInt16.toNat_inj.mp
  rw [toNat_htons, toNat_htons]
  omega

/-- `getaddrinfo` takes `text` for a number, with any port. -/
structure Netdb.Reads (net : Netdb) (text : Bytes) (sockaddr : UInt16 → Address) : Prop where
  ne_nil : text ≠ []
  bracket : 91 ∉ text
  first : ∀ p : UInt16, ∃ others,
    net.getaddrinfo text (decimal p.toNat) = some (sockaddr (htons p) :: others)

/-- What the C library documents of the text it writes for an address. -/
def Netdb.Numeric (net : Netdb) : SockAddr → Prop
  | .inet addr _ =>
    net.pton4 (net.ntop4 addr) = some addr ∧
      net.Reads (net.ntop4 addr) fun p => ⟨.inet addr p, 16⟩
  | .inet6 addr _ _ _ =>
    net.pton4 (net.ntop6 addr) = none ∧ net.pton6 (net.ntop6 addr) = some addr ∧
      net.Reads (net.ntop6 addr) fun p => ⟨.inet6 addr p 0 0, 28⟩
  | .other => True

/-- `s.rfind(b)`. -/
def rfind (b : Byte) (s : Bytes) : Option Nat :=
  (s.reverse.idxOf? b).map fun i => s.length - 1 - i

theorem rfind_append {b : Byte} {t : Bytes} (ht : b ∉ t) (s : Bytes) :
    rfind b (s ++ b :: t) = some s.length := by
  have hrev : (s ++ b :: t).reverse = t.reverse ++ b :: s.reverse := by simp
  rw [rfind, hrev, Lib.idxOf?_append_cons _ (fun h => ht (List.mem_reverse.mp h))]
  simp only [Option.map_some, List.length_append, List.length_cons, List.length_reverse]
  congr 1
  omega

namespace Address

variable (net : Netdb)

def unbracket (host : Bytes) : Bytes :=
  if 2 < host.length ∧ host.head? = some 91 ∧ host.getLast? = some 93 then
    (host.drop 1).take (host.length - 2)
  else host

/-- The first result for a host and a port. -/
def lookup (host port : Bytes) : Address :=
  match net.getaddrinfo host port with
  | some (addr :: _) => addr
  | _ => {}

def resolve (hp : Bytes) : Address :=
  match rfind 58 hp with
  | none => {}
  | some pos => lookup net (unbracket (hp.take pos)) (hp.drop (pos + 1))

def parse (ip : Bytes) (port : UInt16) : Address :=
  match net.pton4 ip with
  | some addr => ⟨.inet addr (htons port), 16⟩
  | none =>
    match net.pton6 ip with
    | some addr => ⟨.inet6 addr (htons port) 0 0, 28⟩
    | none => resolve net (ip ++ 58 :: decimal port.toNat)

def port (a : Address) : UInt16 :=
  match a.storage with
  | .inet _ p => ntohs p
  | .inet6 _ p _ _ => ntohs p
  | .other => 0

def ip (a : Address) : Bytes :=
  match a.storage with
  | .inet addr _ => net.ntop4 addr
  | .inet6 addr _ _ _ => net.ntop6 addr
  | .other => []

def isIpv4 (a : Address) : Bool := a.storage matches .inet ..

def isIpv6 (a : Address) : Bool := a.storage matches .inet6 ..

def isValid (a : Address) : Bool := a.isIpv4 || a.isIpv6

def toString (a : Address) : Bytes :=
  if a.isValid then
    (if a.isIpv6 then 91 :: a.ip net ++ [93] else a.ip net) ++ 58 :: decimal a.port.toNat
  else bytes "(invalid)"

/-! ## Reading what is written -/

/-- What is left of an address in its text: no `sin6_flowinfo` and no `sin6_scope_id`. -/
def plain (a : Address) : Address :=
  match a.storage with
  | .inet addr p => ⟨.inet addr p, 16⟩
  | .inet6 addr p _ _ => ⟨.inet6 addr p 0 0, 28⟩
  | .other => {}

variable {net} {host port : Bytes}

theorem resolve_host_port (hport : 58 ∉ port) :
    resolve net (host ++ 58 :: port) = lookup net (unbracket host) port := by
  have hdrop : (host ++ 58 :: port).drop (host.length + 1) = port := by
    rw [← List.drop_drop, List.drop_left, List.drop_one, List.tail_cons]
  simp only [resolve, rfind_append hport host, List.take_left, hdrop]

theorem unbracket_brackets (hne : host ≠ []) : unbracket (91 :: host ++ [93]) = host := by
  have hlen : 0 < host.length := List.length_pos_iff.mpr hne
  have hcond : 2 < (91 :: host ++ [93]).length ∧ (91 :: host ++ [93]).head? = some 91 ∧
      (91 :: host ++ [93]).getLast? = some 93 := by
    refine ⟨?_, rfl, List.getLast?_concat⟩
    rw [List.length_append, List.length_cons, List.length_singleton]
    omega
  rw [unbracket, if_pos hcond]
  simp

theorem unbracket_of_notMem (h : 91 ∉ host) : unbracket host = host := by
  refine if_neg fun hcond => h ?_
  exact List.mem_of_mem_head? hcond.2.1

theorem colon_notMem_decimal (n : Nat) : 58 ∉ decimal n := by
  intro h
  rcases decimal_byte h with h | ⟨-, h⟩
  · exact absurd h (by decide)
  · exact absurd h (by decide)

/-- Whatever the text, colons and brackets included, it is the host that is looked up. -/
theorem parse_eq (ip : Bytes) (port : UInt16) :
    parse net ip port =
      (((net.pton4 ip).map fun addr => ⟨.inet addr (htons port), 16⟩).or
        ((net.pton6 ip).map fun addr => ⟨.inet6 addr (htons port) 0 0, 28⟩)).getD
          (lookup net (unbracket ip) (decimal port.toNat)) := by
  rw [parse]
  cases net.pton4 ip with
  | some addr => rfl
  | none =>
    cases net.pton6 ip with
    | some addr => rfl
    | none => exact resolve_host_port (colon_notMem_decimal _)

theorem lookup_eq {sockaddr : UInt16 → Address} (h : net.Reads host sockaddr) (p : UInt16) :
    lookup net host (decimal p.toNat) = sockaddr (htons p) := by
  obtain ⟨others, hfirst⟩ := h.first p
  rw [lookup, hfirst]

/-- **An address can be read from its text**, with the brackets of `to_string` or without them,
and from its number and port. What the text leaves out is `sin6_flowinfo` and `sin6_scope_id`. -/
theorem resolve_toString {a : Address} (hvalid : a.isValid = true) (hnum : net.Numeric a.storage) :
    resolve net (a.toString net) = a.plain ∧
      resolve net (a.ip net ++ 58 :: decimal a.port.toNat) = a.plain ∧
      parse net (a.ip net) a.port = a.plain := by
  obtain ⟨storage, socklen⟩ := a
  cases storage with
  | other => cases hvalid
  | inet addr p =>
    obtain ⟨hpton, hreads⟩ := hnum
    have hlookup : lookup net (net.ntop4 addr) (decimal (ntohs p).toNat) = ⟨.inet addr p, 16⟩ := by
      rw [lookup_eq hreads, ntohs, htons_htons]
    have hresolve : resolve net (net.ntop4 addr ++ 58 :: decimal (ntohs p).toNat) =
        ⟨.inet addr p, 16⟩ := by
      rw [resolve_host_port (colon_notMem_decimal _), unbracket_of_notMem hreads.bracket, hlookup]
    refine ⟨hresolve, hresolve, ?_⟩
    show parse net (net.ntop4 addr) (ntohs p) = _
    rw [parse, hpton]
    exact congrArg (fun q => (⟨.inet addr q, 16⟩ : Address)) (htons_htons p)
  | inet6 addr p flowinfo scopeId =>
    obtain ⟨hpton4, hpton6, hreads⟩ := hnum
    have hlookup : lookup net (net.ntop6 addr) (decimal (ntohs p).toNat) =
        ⟨.inet6 addr p 0 0, 28⟩ := by
      rw [lookup_eq hreads, ntohs, htons_htons]
    refine ⟨?_, ?_, ?_⟩
    · show resolve net ((91 :: net.ntop6 addr ++ [93]) ++ 58 :: decimal (ntohs p).toNat) = _
      rw [resolve_host_port (colon_notMem_decimal _), unbracket_brackets hreads.ne_nil, hlookup]
      rfl
    · show resolve net (net.ntop6 addr ++ 58 :: decimal (ntohs p).toNat) = _
      rw [resolve_host_port (colon_notMem_decimal _), unbracket_of_notMem hreads.bracket, hlookup]
      rfl
    · show parse net (net.ntop6 addr) (ntohs p) = _
      rw [parse, hpton4, hpton6]
      exact congrArg (fun q => (⟨.inet6 addr q 0 0, 28⟩ : Address)) (htons_htons p)

/-- The C library on `::1`. -/
def loopback : Netdb where
  pton4 _ := none
  pton6 s := if s = bytes "::1" then some 1 else none
  ntop4 _ := []
  ntop6 _ := bytes "::1"
  getaddrinfo host port :=
    if host = bytes "::1" then some [⟨.inet6 1 (htons (.ofNat (number port))) 0 0, 28⟩] else none

theorem loopback_numeric (p : UInt16) (flowinfo scopeId : UInt32) :
    loopback.Numeric (.inet6 1 p flowinfo scopeId) := by
  refine ⟨rfl, rfl, by decide, by decide, fun q => ⟨[], ?_⟩⟩
  show some [(⟨.inet6 1 (htons (.ofNat (number (decimal q.toNat)))) 0 0, 28⟩ : Address)] = _
  rw [number_decimal, UInt16.ofNat_toNat]

example : (⟨.inet6 1 (htons 8080) 0 0, 28⟩ : Address).toString loopback = bytes "[::1]:8080" := by
  decide +kernel

theorem resolve_toString_loopback :
    resolve loopback ((⟨.inet6 1 (htons 8080) 0 7, 28⟩ : Address).toString loopback) =
        ⟨.inet6 1 (htons 8080) 0 0, 28⟩ ∧
      resolve loopback (bytes "::1" ++ 58 :: decimal (ntohs (htons 8080)).toNat) =
        ⟨.inet6 1 (htons 8080) 0 0, 28⟩ ∧
      parse loopback (bytes "::1") (ntohs (htons 8080)) = ⟨.inet6 1 (htons 8080) 0 0, 28⟩ :=
  resolve_toString (a := ⟨.inet6 1 (htons 8080) 0 7, 28⟩) rfl (loopback_numeric _ _ _)

end Address

end Hound
