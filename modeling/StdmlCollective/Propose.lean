import StdmlCollective.ClusterJson
import StdmlCollective.ClusterResize
import StdmlCollective.Http

/-!
# Proposing a new size

`propose_new_size` resizes the cluster and puts the config as JSON on the config server, whose URL
is taken apart by `http_parse_url`: a host, a port when there is a colon in front of the path, and
a path. It does not look at the response.
-/

namespace StdmlCollective

open Decimal Scanf

/-- `"http://"`. -/
def httpPrefix : Bytes := [104, 116, 116, 112, 58, 47, 47]

/-- `starts_with`, which is `strncmp`. -/
def startsWith (s p : Bytes) : Bool := (cStr s).take (cStr p).length = cStr p

/-- `std::string::find` from a position on. -/
def findFrom (c : UInt8) (t : Bytes) (pos : ℕ) : ℕ :=
  if c ∈ t.drop pos then pos + (t.drop pos).idxOf c else npos

/-- `http_parse_url`: host, port and path, when it returns `true`. -/
def httpParseUrl (url : Bytes) : Option (Bytes × UInt16 × Bytes) :=
  if startsWith url httpPrefix then
    let pos := findFrom 47 url httpPrefix.length
    if pos = npos then none
    else
      let host := (url.drop httpPrefix.length).take (pos - httpPrefix.length)
      let path := url.drop pos
      let colon := find 58 host
      if colon ≠ npos then
        match scan [.unsigned 16] (cStr (host.drop (colon + 1))) with
        | [port] => some (host.take colon, UInt16.ofNat port, path)
        | _ => none
      else some (host, 80, path)
  else none

/-- `"PUT"`. -/
def putMethod : Bytes := [80, 85, 84]

/-- `"Content-Length"`. -/
def contentLengthKey : Bytes := [67, 111, 110, 116, 101, 110, 116, 45, 76, 101, 110, 103, 116, 104]

/-- What `http_client::http_put` writes. -/
def httpPut (host : Bytes) (port : UInt16) (path data : Bytes) : Bytes :=
  let kvs := [(hostKey, hostValue host port.toUInt32.toInt32),
    (contentLengthKey, toDecimal data.length)]
  httpMakeRequest putMethod path kvs ++ data

/-- A request, and where it is sent. -/
structure Proposal where
  host : Bytes
  port : UInt16
  text : Bytes

/-- `propose_new_size`, with `KUNGFU_CONFIG_SERVER`. -/
def proposeNewSize (url : Bytes) (oldCluster : ClusterConfig) (newSize : ℕ) :
    Except ResizeFault (Option Proposal) :=
  match httpParseUrl url with
  | none => return none
  | some (host, port, path) => do
      let newCluster ← oldCluster.resize newSize
      return some ⟨cStr host, port, httpPut host port path newCluster.json⟩

/-! ## URLs -/

/-- The URLs of the config server: with a port, which is what `%hu` makes of the text between the
colon and the path, or without one. -/
inductive Url : Bytes → Bytes → UInt16 → Bytes → Prop where
  | host {host path : Bytes} : 47 ∉ host → 58 ∉ host →
      Url (httpPrefix ++ host ++ 47 :: path) host 80 (47 :: path)
  | port {host sport path : Bytes} {port : ℕ} : 47 ∉ host → 58 ∉ host → 47 ∉ sport →
      Matches [.unsigned 16] (cStr sport) [port] →
      Url (httpPrefix ++ (host ++ 58 :: sport) ++ 47 :: path) host (UInt16.ofNat port) (47 :: path)

section Url

variable {url host path : Bytes} {port : UInt16}

theorem cStr_append {s : Bytes} (h : NulFree s) (t : Bytes) : cStr (s ++ t) = s ++ cStr t := by
  rw [cStr, List.takeWhile_append_of_pos fun c hc => decide_eq_true (h c hc)]
  rfl

theorem nulFree_httpPrefix : NulFree httpPrefix := by decide

theorem startsWith_httpPrefix : startsWith url httpPrefix ↔ httpPrefix <+: cStr url := by
  rw [startsWith, decide_eq_true_eq, cStr_eq_self nulFree_httpPrefix, List.prefix_iff_eq_take,
    eq_comm]

/-- The part of a URL in front of the path. -/
theorem httpParseUrl_append {auth : Bytes} (hauth : 47 ∉ auth) (hlen : auth.length < 2 ^ 63)
    (path : Bytes) :
    httpParseUrl (httpPrefix ++ auth ++ 47 :: path) =
      if find 58 auth ≠ npos then
        match scan [.unsigned 16] (cStr (auth.drop (find 58 auth + 1))) with
        | [port] => some (auth.take (find 58 auth), UInt16.ofNat port, 47 :: path)
        | _ => none
      else some (auth, 80, 47 :: path) := by
  have hstart : startsWith (httpPrefix ++ (auth ++ 47 :: path)) httpPrefix := by
    rw [startsWith_httpPrefix, cStr_append nulFree_httpPrefix]
    exact List.prefix_append ..
  have hpos : findFrom 47 (httpPrefix ++ (auth ++ 47 :: path)) httpPrefix.length =
      httpPrefix.length + auth.length := by
    rw [findFrom, List.drop_left, if_pos (by simp), List.idxOf_append_of_notMem hauth,
      List.idxOf_cons_self, Nat.add_zero]
  have hne : httpPrefix.length + auth.length ≠ npos := by
    have hseven : httpPrefix.length = 7 := rfl
    rw [npos]
    omega
  have hdrop : (httpPrefix ++ (auth ++ 47 :: path)).drop (httpPrefix.length + auth.length) =
      47 :: path := by
    rw [← List.append_assoc, ← List.length_append, List.drop_left]
  rw [List.append_assoc, httpParseUrl, if_pos hstart, hpos]
  simp only [if_neg hne, hdrop, List.drop_left, Nat.add_sub_cancel_left, List.take_left]

theorem exists_of_httpParseUrl (h : httpParseUrl url ≠ none) :
    ∃ auth path, 47 ∉ auth ∧ url = httpPrefix ++ auth ++ 47 :: path := by
  rw [httpParseUrl] at h
  split at h
  · next hstart =>
    obtain ⟨rest, rfl⟩ : httpPrefix <+: url :=
      (startsWith_httpPrefix.mp hstart).trans (List.takeWhile_prefix _)
    by_cases hslash : 47 ∈ rest
    · obtain ⟨auth, path, rfl, hauth⟩ := List.eq_append_cons_of_mem hslash
      exact ⟨auth, path, hauth, by rw [List.append_assoc]⟩
    · simp [findFrom, hslash] at h
  · exact absurd rfl h

theorem scan_unsigned_iff {t : Bytes} {p : ℕ} :
    scan [.unsigned 16] t = [p] ↔ Matches [.unsigned 16] t [p] := by
  constructor
  · intro h
    rw [← h]
    exact matches_of_scan (by simp [Tight]) (by simp [h, conversions])
  · exact Matches.scan

/-- **What `http_parse_url` accepts, and how it is taken apart.** -/
theorem httpParseUrl_iff (hlen : url.length < 2 ^ 63) :
    httpParseUrl url = some (host, port, path) ↔ Url url host port path := by
  constructor
  · intro h
    have hsome : httpParseUrl url ≠ none := h ▸ Option.some_ne_none _
    obtain ⟨auth, path', hauth, rfl⟩ := exists_of_httpParseUrl hsome
    have hlt : auth.length < 2 ^ 63 := by
      simp only [List.length_append] at hlen
      omega
    rw [httpParseUrl_append hauth hlt] at h
    by_cases hcolon : 58 ∈ auth
    · obtain ⟨host', sport, rfl, hhost⟩ := List.eq_append_cons_of_mem hcolon
      have hne : host'.length ≠ npos := by
        simp only [List.length_append] at hlt
        rw [npos]
        omega
      have hdrop : (host' ++ 58 :: sport).drop (host'.length + 1) = sport := by simp
      simp only [find_append hhost, if_pos hne, hdrop, List.take_left] at h
      split at h
      · next p hscan =>
        simp only [Option.some.injEq, Prod.mk.injEq] at h
        obtain ⟨rfl, rfl, rfl⟩ := h
        simp only [List.mem_append, List.mem_cons, not_or] at hauth
        exact .port hauth.1 hhost hauth.2.2 (scan_unsigned_iff.mp hscan)
      · cases h
    · rw [find_of_notMem hcolon, if_neg (not_not.mpr rfl)] at h
      simp only [Option.some.injEq, Prod.mk.injEq] at h
      obtain ⟨rfl, rfl, rfl⟩ := h
      exact .host hauth hcolon
  · rintro (⟨hslash, hcolon⟩ | ⟨hslash, hcolon, hsport, hport⟩)
    · have hlt : host.length < 2 ^ 63 := by
        simp only [List.length_append] at hlen
        omega
      rw [httpParseUrl_append hslash hlt, find_of_notMem hcolon, if_neg (not_not.mpr rfl)]
    · next sport path port =>
      have hlt : (host ++ 58 :: sport).length < 2 ^ 63 := by
        simp only [List.length_append] at hlen ⊢
        omega
      have hne : host.length ≠ npos := by
        simp only [List.length_append] at hlt
        rw [npos]
        omega
      have hdrop : (host ++ 58 :: sport).drop (host.length + 1) = sport := by simp
      rw [httpParseUrl_append (by simp [hslash, hsport]) hlt]
      simp only [find_append hcolon, if_pos hne, hdrop, List.take_left, hport.scan]

/-- `http://h:9100/c`. -/
def smallUrl : Bytes := httpPrefix ++ ([104] ++ 58 :: [57, 49, 48, 48]) ++ 47 :: [99]

theorem url_smallUrl : Url smallUrl [104] 9100 [47, 99] := by
  have hdigits : Digits [57, 49, 48, 48] := by simp [Digits, isDigit]
  have hfield : Field [57, 49, 48, 48] 9100 := hdigits.field (by decide)
  have hstops : Stops [] := by simp [Stops]
  exact Url.port (by decide) (by decide) (by decide) (.unsigned hfield hstops .nil)

theorem httpParseUrl_iff_small : httpParseUrl smallUrl = some ([104], 9100, [47, 99]) :=
  (httpParseUrl_iff (by decide)).mpr url_smallUrl

end Url

/-! ## Requests -/

section Request

variable {host path data : Bytes} {port : UInt16}

/-- `PUT path HTTP/1.1`. -/
def requestLine (path : Bytes) : Bytes := putMethod ++ 32 :: (path ++ 32 :: httpVersion)

/-- The header lines of a request. -/
def requestHeaders (host : Bytes) (port : UInt16) (len : ℕ) : List Bytes :=
  [hostKey ++ [58, 32] ++ hostValue host port.toUInt32.toInt32,
    contentLengthKey ++ [58, 32] ++ toDecimal len]

theorem httpPut_eq (hpath : NulFree path) (data : Bytes) :
    httpPut host port path data =
      joinLines (requestLine path :: requestHeaders host port data.length) ++ crlf ++ data := by
  have hput : cStr putMethod = putMethod := cStr_eq_self (by decide)
  simp [httpPut, httpMakeRequest, hput, cStr_eq_self hpath, joinLines, requestLine, requestHeaders]

/-- Decimal digits are no line end. -/
theorem lineEnd_notMem_toDecimal (n : ℕ) : 10 ∉ toDecimal n := by
  intro h
  exact absurd ((Address.digits_toDecimal n).2 10 h) (by decide)

theorem lineEnd_notMem_intText (x : Int32) : 10 ∉ intText x := by
  unfold intText
  split <;> simp [lineEnd_notMem_toDecimal]

theorem headerLine_request (hhost : 10 ∉ host) (hpath : 10 ∉ path) (len : ℕ) :
    ∀ l ∈ requestLine path :: requestHeaders host port len, HeaderLine l := by
  have hcStr : 10 ∉ cStr host := fun h => hhost ((List.takeWhile_prefix _).subset h)
  have hversion : 10 ∉ httpVersion := by decide
  simp [requestLine, requestHeaders, HeaderLine, putMethod, hostKey, contentLengthKey, hostValue,
    hpath, hversion, hcStr, lineEnd_notMem_toDecimal, lineEnd_notMem_intText]

/-- The header line that gives the length. -/
theorem saysLength_toDecimal (len : ℕ) :
    SaysLength (contentLengthKey ++ [58, 32] ++ toDecimal len) len :=
  ⟨contentLengthKey, [32], toDecimal len, [], by simp, by decide, by simp [isSpace],
    Address.digits_toDecimal len, by simp, value_toDecimal len⟩

/-- The code finds the length of the data in its own request. -/
theorem httpContentLength_request {len : ℕ} (hlen : len < 2 ^ 31) :
    httpContentLength (requestLine path :: requestHeaders host port len) = some len := by
  have hother : ∀ (c : UInt8) (l : Bytes), toLower c ≠ 99 → ¬IsContentLength (c :: l) := by
    rintro c l hc ⟨key, val, heq, hkey⟩
    cases key with
    | nil => cases hkey
    | cons d key =>
        rw [List.cons_append, List.cons.injEq] at heq
        rw [← heq.1, List.map_cons, contentLength, List.cons.injEq] at hkey
        exact hc hkey.1
  have hfirst : ¬IsContentLength (requestLine path) := hother 80 _ (by decide)
  have hsecond : ¬IsContentLength (hostKey ++ [58, 32] ++ hostValue host port.toUInt32.toInt32) :=
    hother 72 _ (by decide)
  rw [httpContentLength_other hfirst, requestHeaders, httpContentLength_other hsecond]
  exact httpContentLength_says (saysLength_toDecimal len) hlen []

theorem length_toDecimal_lt {n : ℕ} (h : n < 2 ^ 33) : (toDecimal n).length ≤ 10 := by
  unfold toDecimal
  split
  · simp
  · rw [List.length_reverse, List.length_map, Nat.digits_length_le_iff (by omega)]
    omega

theorem length_requestHeaders {len : ℕ} (hlen : len < 2 ^ 31) :
    (joinLines (requestLine path :: requestHeaders host port len)).length ≤
      host.length + path.length + 100 := by
  have hcStr : (cStr host).length ≤ host.length := (List.takeWhile_prefix _).length_le
  have hdec : (toDecimal len).length ≤ 10 := length_toDecimal_lt (by omega)
  have hport : (intText port.toUInt32.toInt32).length ≤ 11 := by
    have hlt := port.toUInt32.toInt32.toInt_lt
    have hle := port.toUInt32.toInt32.le_toInt
    have habs := length_toDecimal_lt (n := port.toUInt32.toInt32.toInt.natAbs) (by omega)
    unfold intText
    split
    · exact Nat.succ_le_succ habs
    · omega
  simp only [joinLines, requestLine, requestHeaders, putMethod, httpVersion, hostKey, crlf,
    contentLengthKey, hostValue, List.flatMap_cons, List.flatMap_nil, List.length_append,
    List.length_cons, List.length_nil]
  omega

end Request

section Propose

variable {url host path : Bytes} {port : UInt16} {old c : ClusterConfig} {n : ℕ}

/-- Host and path are parts of the URL. -/
theorem Url.subset (h : Url url host port path) :
    host ⊆ url ∧ path ⊆ url ∧ host.length + path.length ≤ url.length := by
  cases h with
  | host =>
      exact ⟨fun x hx => by simp [hx], fun x hx => List.mem_append_right _ hx, by simp⟩
  | port =>
      refine ⟨fun x hx => by simp [hx], fun x hx => ?_, by simp; omega⟩
      exact List.mem_append_right _ hx

/-- The size of the config that is proposed. -/
theorem length_workers_resize (hne : old.runners ≠ []) (h : old.resize n = .ok c) :
    c.workers.length = n := by
  rcases Nat.le_total n old.workers.length with hle | hge
  · rw [ClusterConfig.resize_of_le hle, Except.ok.injEq] at h
    rw [← h, List.length_take, min_eq_left hle]
  · obtain ⟨added, rfl, hlen, -⟩ := (ClusterConfig.resize_eq_ok hne hge).mp h
    rw [List.length_append, hlen]

/-- A runner and two workers, of which one is to be left. -/
def smallCluster : ClusterConfig :=
  ⟨[⟨2130706433, 38080⟩], [⟨2130706433, 10000⟩, ⟨2130706433, 10001⟩]⟩

end Propose

end StdmlCollective
