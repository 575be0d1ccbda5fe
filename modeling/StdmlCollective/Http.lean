import StdmlCollective.AddressText
import StdmlCollective.Rchan

/-!
# HTTP

The two ways to make a request, one of them through arrays of 256 bytes, and what `http_get` makes
of a response. `read_resp_header` takes the header apart into lines. When there is no line end in
what it has read it means to read more, but it asks for this by comparing the result of `find` with
the size of the buffer, and `find` returns `npos`. So the first `read_some` has to bring the whole
header.
-/

namespace StdmlCollective

open Decimal Scanf

/-- The end of a line. -/
def crlf : Bytes := [13, 10]

/-- `"HTTP/1.1"`. -/
def httpVersion : Bytes := [72, 84, 84, 80, 47, 49, 46, 49]

/-! ## Requests -/

/-- `"Host"`. -/
def hostKey : Bytes := [72, 111, 115, 116]

/-- `%d`, and `<<` of an `int`. -/
def intText (x : Int32) : Bytes :=
  if x < 0 then 45 :: toDecimal x.toInt.natAbs else toDecimal x.toInt.natAbs

/-- `http_make_request(method, path, kvs)`. -/
def httpMakeRequest (method path : Bytes) (kvs : List (Bytes × Bytes)) : Bytes :=
  cStr method ++ [32] ++ cStr path ++ 32 :: httpVersion ++ crlf ++
    kvs.flatMap (fun kv => kv.1 ++ [58, 32] ++ kv.2 ++ crlf) ++ crlf

/-- `http_make_request(method, host, port, path)`. -/
def httpMakeRequestTo (method host : Bytes) (port : Int32) (path : Bytes) : Bytes :=
  let reqLine := Old.snprintf 256 (cStr method ++ [32] ++ cStr path ++ 32 :: httpVersion)
  let hostLine := Old.snprintf 256 (hostKey ++ [58, 32] ++ cStr host ++ 58 :: intText port)
  reqLine ++ crlf ++ hostLine ++ crlf ++ crlf

/-- `host + ":" + port`. -/
def hostValue (host : Bytes) (port : Int32) : Bytes := cStr host ++ 58 :: intText port

theorem snprintf_eq_self {size : ℕ} {t : Bytes} (h : t.length < size) : Old.snprintf size t = t :=
  List.take_of_length_le (by omega)

theorem length_httpMakeRequestTo (method host : Bytes) (port : Int32) (path : Bytes) :
    (httpMakeRequestTo method host port path).length =
      min 255 ((cStr method).length + (cStr path).length + 10) +
        min 255 ((cStr host).length + (intText port).length + 7) + 6 := by
  simp only [httpMakeRequestTo, Old.snprintf, hostKey, httpVersion, crlf, List.length_append,
    List.length_take, List.length_cons, List.length_nil]
  omega

theorem length_httpMakeRequest (method host : Bytes) (port : Int32) (path : Bytes) :
    (httpMakeRequest method path [(hostKey, hostValue host port)]).length =
      (cStr method).length + (cStr path).length + 10 +
        ((cStr host).length + (intText port).length + 7) + 6 := by
  simp only [httpMakeRequest, hostValue, hostKey, httpVersion, crlf, List.flatMap_cons,
    List.flatMap_nil, List.append_nil, List.length_append, List.length_cons, List.length_nil]
  omega

/-- **When the two requests are the same.** When neither line is cut. -/
theorem httpMakeRequestTo_eq_iff (method host : Bytes) (port : Int32) (path : Bytes) :
    httpMakeRequestTo method host port path =
        httpMakeRequest method path [(hostKey, hostValue host port)] ↔
      (cStr method).length + (cStr path).length + 10 ≤ 255 ∧
        (cStr host).length + (intText port).length + 7 ≤ 255 := by
  constructor
  · intro h
    have hlen := congrArg List.length h
    rw [length_httpMakeRequestTo, length_httpMakeRequest] at hlen
    omega
  · rintro ⟨hreq, hhost⟩
    have hreq' : (cStr method ++ [32] ++ cStr path ++ 32 :: httpVersion).length < 256 := by
      simp only [httpVersion, List.length_append, List.length_cons, List.length_nil]
      omega
    have hhost' : (hostKey ++ [58, 32] ++ cStr host ++ 58 :: intText port).length < 256 := by
      simp only [hostKey, List.length_append, List.length_cons, List.length_nil]
      omega
    simp only [httpMakeRequestTo, snprintf_eq_self hreq', snprintf_eq_self hhost']
    simp only [httpMakeRequest, hostValue, List.flatMap_cons, List.flatMap_nil, List.append_nil,
      List.append_assoc]

/-- A path of 256 bytes. -/
theorem httpMakeRequestTo_ne_long :
    httpMakeRequestTo [71, 69, 84] [104] 80 (List.replicate 256 47) ≠
      httpMakeRequest [71, 69, 84] (List.replicate 256 47) [(hostKey, hostValue [104] 80)] := by
  intro h
  have hpath : cStr (List.replicate 256 47) = List.replicate 256 47 :=
    cStr_eq_self fun c hc => by rw [List.eq_of_mem_replicate hc]; decide
  have hlen := congrArg List.length h
  rw [length_httpMakeRequestTo, length_httpMakeRequest, hpath, List.length_replicate] at hlen
  omega

/-! ## Responses -/

/-- `std::string::npos`. -/
def npos : ℕ := 2 ^ 64 - 1

/-- `std::string::find`. -/
def find (c : UInt8) (t : Bytes) : ℕ := if c ∈ t then t.idxOf c else npos

/-- `std::string(t.data(), t.data() + pos - 1)`. An end before the beginning is a length that is
longer than every string. -/
@[irreducible] def lineText (t : Bytes) (pos : ℕ) : Except Fault Bytes :=
  let n := (UInt64.ofNat pos - 1).toNat
  if 2 ^ 63 - 1 < n then .error .throws else .ok (t.take n)

theorem find_of_notMem {c : UInt8} {t : Bytes} (h : c ∉ t) : find c t = npos := if_neg h

theorem find_append {c : UInt8} {t : Bytes} (h : c ∉ t) (u : Bytes) :
    find c (t ++ c :: u) = t.length := by
  rw [find, if_pos (by simp), List.idxOf_append_of_notMem h, List.idxOf_cons_self, Nat.add_zero]

theorem lineText_succ {t : Bytes} {n : ℕ} (h : n < 2 ^ 63) :
    lineText t (n + 1) = .ok (t.take n) := by
  have hsub : (UInt64.ofNat (n + 1) - 1).toNat = n := by
    rw [UInt64.ofNat_add, show UInt64.ofNat 1 = 1 from rfl, UInt64.add_sub_cancel]
    exact UInt64.toNat_ofNat_of_lt' (show n < 2 ^ 64 by omega)
  rw [lineText, hsub, if_neg (by omega)]

theorem lineText_npos (t : Bytes) : lineText t npos = .error .throws := by
  have hsub : (UInt64.ofNat npos - 1).toNat = 2 ^ 64 - 2 := by decide
  rw [lineText, hsub, if_pos (by decide)]

theorem length_drop_find_lt {c : UInt8} {t line : Bytes} (h : lineText t (find c t) = .ok line) :
    (t.drop (find c t + 1)).length < t.length := by
  by_cases hc : c ∈ t
  · have hpos := List.length_pos_of_mem hc
    rw [List.length_drop]
    omega
  · rw [find_of_notMem hc, lineText_npos] at h
    cases h

/-- How the inner loop of `read_resp_header` ends: with the blank line, or at the end of what has
been read. -/
inductive HeaderEnd where
  | blank (lines : List Bytes) (buf : Bytes)
  | more (lines : List Bytes) (buf : Bytes)

/-- The inner loop of `http_client::read_resp_header`. -/
def splitLines (lines : List Bytes) (buf : Bytes) : Except Fault HeaderEnd :=
  if find 10 buf ≠ buf.length then
    if find 10 buf = 1 then .ok (.blank lines (buf.drop (find 10 buf + 1)))
    else
      match _h : lineText buf (find 10 buf) with
      | .error f => .error f
      | .ok line => splitLines (lines ++ [line]) (buf.drop (find 10 buf + 1))
  else .ok (.more lines buf)
termination_by buf.length
decreasing_by exact length_drop_find_lt _h

/-- The outer loop, `buf` being what is left of the earlier reads. -/
def readHeaderLoop (bufferSize : ℕ) (lines : List Bytes) (buf : Bytes) (s : Socket) :
    Except Fault ((List Bytes × Bytes) × Socket) :=
  -- a full buffer: `read_some` of no bytes, again and again
  if bufferSize ≤ buf.length then .error .spins
  else
    let r := s.readSome (bufferSize - buf.length)
    match splitLines lines (buf ++ r.1) with
    | .error f => .error f
    | .ok (.blank lines buf) => .ok ((lines, buf), r.2)
    | .ok (.more lines buf) =>
        if _h : r.1 = [] then .error .spins else readHeaderLoop bufferSize lines buf r.2
termination_by s.bytes.length
decreasing_by exact Socket.length_readSome_lt _h

/-- `http_client::read_resp_header`. -/
def readRespHeader (bufferSize : ℕ) : Reading (List Bytes × Bytes) :=
  readHeaderLoop bufferSize [] []

/-- `std::tolower`. -/
def toLower (c : UInt8) : UInt8 := if 65 ≤ c.toNat && c.toNat ≤ 90 then c + 32 else c

/-- `trim`. -/
def trim (t : Bytes) : Bytes := t.dropWhile isSpace

/-- `"content-length"`. -/
def contentLength : Bytes :=
  [99, 111, 110, 116, 101, 110, 116, 45, 108, 101, 110, 103, 116, 104]

/-- `http_content_length`. The `int` becomes a `size_t`. -/
def httpContentLength : List Bytes → Option ℕ
  | [] => none
  | line :: lines =>
      let pos := find 58 line
      if pos = npos then httpContentLength lines
      else if (line.take pos).map toLower = contentLength then
        (scanInt (cStr (trim (line.drop (pos + 1))))).map fun x => (x.1 % 2 ^ 64).toNat
      else httpContentLength lines

/-- `sscanf(line, "%s %d", version, &code)` with `char version[16]` and `int code = 0`. A word that
is too long for the array is an error here. -/
def statusCode (line : Bytes) : Except Fault ℤ :=
  match scanWord (cStr line) with
  | none => .ok 0
  | some (version, rest) =>
      if 16 ≤ version.length then .error .throws else .ok ((scanInt rest).elim 0 Prod.fst)

/-- `http_client::http_get`, from the response on. -/
def httpGet : Reading (ℤ × Bytes) := do
  let (lines, body) ← readRespHeader (2 ^ 16)
  match lines with
  | [] => throw .throws
  | line :: _ =>
      let code ← statusCode line
      match httpContentLength lines with
      | none => return (code, body)
      | some cl =>
          -- `body.resize(cl)`
          if 2 ^ 63 - 1 < cl then throw .throws
          else
            let rest ← Cxx20.read ((UInt64.ofNat cl - UInt64.ofNat body.length).toNat)
            return (code, body.take cl ++ rest)

/-! ## Header lines -/

/-- Lines with their ends. -/
def joinLines (ls : List Bytes) : Bytes := ls.flatMap (· ++ crlf)

/-- A line of a header: it is not blank and has no line end in it. -/
def HeaderLine (l : Bytes) : Prop := l ≠ [] ∧ 10 ∉ l

section Split

variable {ls : List Bytes} {lines : List Bytes} {buf l rest : Bytes}

theorem length_le_joinLines (h : l ∈ ls) : l.length ≤ (joinLines ls).length := by
  obtain ⟨a, b, rfl⟩ := List.append_of_mem h
  simp only [joinLines, List.flatMap_append, List.flatMap_cons, List.length_append]
  omega

theorem splitLines_blank (lines : List Bytes) (rest : Bytes) :
    splitLines lines (crlf ++ rest) = .ok (.blank lines rest) := by
  have hfind : find 10 (crlf ++ rest) = 1 :=
    find_append (t := [13]) (by decide) rest
  rw [splitLines, hfind, if_pos (by simp [crlf]), if_pos rfl]
  rfl

theorem splitLines_of_cut (hne : find 10 buf ≠ buf.length) (hone : find 10 buf ≠ 1)
    (hcut : lineText buf (find 10 buf) = .ok l) :
    splitLines lines buf = splitLines (lines ++ [l]) (buf.drop (find 10 buf + 1)) := by
  rw [splitLines, if_pos hne, if_neg hone]
  split
  · next heq =>
      rw [hcut] at heq
      cases heq
  · next heq =>
      rw [hcut] at heq
      cases heq
      rfl

/-- A line that has been read whole. -/
theorem splitLines_line (hl : HeaderLine l) (hlen : l.length < 2 ^ 63) (rest : Bytes) :
    splitLines lines (l ++ crlf ++ rest) = splitLines (lines ++ [l]) rest := by
  have hfind : find 10 (l ++ crlf ++ rest) = l.length + 1 := by
    rw [show l ++ crlf ++ rest = (l ++ [13]) ++ 10 :: rest by simp [crlf],
      find_append (by simp [hl.2]), List.length_append, List.length_singleton]
  have hpos := List.length_pos_of_ne_nil hl.1
  have htotal : (l ++ crlf ++ rest).length = l.length + 2 + rest.length := by
    rw [List.length_append, List.length_append]
    rfl
  have hcut : lineText (l ++ crlf ++ rest) (l.length + 1) = .ok l := by
    rw [lineText_succ hlen, List.append_assoc, List.take_left]
  have hdrop : (l ++ crlf ++ rest).drop (l.length + 1 + 1) = rest := by
    rw [show l.length + 1 + 1 = (l ++ crlf).length by rw [List.length_append]; rfl, List.drop_left]
  rw [splitLines_of_cut (by omega) (by omega) (hfind ▸ hcut), hfind, hdrop]

/-- Without a line end the string that is made of the line has no end. -/
theorem splitLines_notMem (h : 10 ∉ buf) (hlen : buf.length < 2 ^ 63) :
    splitLines lines buf = .error .throws := by
  have hne : npos ≠ buf.length := by
    rw [npos]
    omega
  rw [splitLines, find_of_notMem h, if_pos hne, if_neg (by decide)]
  split
  · next heq =>
      rw [lineText_npos] at heq
      cases heq
      rfl
  · next heq =>
      rw [lineText_npos] at heq
      cases heq

/-- A header that has been read whole. -/
theorem splitLines_whole (hls : ∀ l ∈ ls, HeaderLine l) (hlen : (joinLines ls).length < 2 ^ 63)
    (lines : List Bytes) (rest : Bytes) :
    splitLines lines (joinLines ls ++ crlf ++ rest) = .ok (.blank (lines ++ ls) rest) := by
  induction ls generalizing lines with
  | nil =>
      rw [List.append_nil]
      exact splitLines_blank lines rest
  | cons l ls ih =>
      have hcons : joinLines (l :: ls) = l ++ crlf ++ joinLines ls := List.flatMap_cons
      have hl : l.length < 2 ^ 63 := (length_le_joinLines List.mem_cons_self).trans_lt hlen
      rw [hcons, List.length_append] at hlen
      rw [hcons, List.append_assoc, List.append_assoc, ← List.append_assoc (joinLines ls),
        splitLines_line (hls l List.mem_cons_self) hl,
        ih (fun k hk => hls k (List.mem_cons_of_mem l hk)) (by omega), List.append_assoc]
      rfl

/-- What has been read ends inside a line. -/
theorem notMem_of_prefix {x y : Bytes} (hx : 10 ∉ x) (h : buf <+: x ++ y)
    (hle : buf.length ≤ x.length) : 10 ∉ buf := by
  intro hmem
  exact hx ((List.prefix_of_prefix_length_le h (List.prefix_append x y) hle).subset hmem)

/-- A part of a header. -/
theorem splitLines_part (hls : ∀ l ∈ ls, HeaderLine l)
    (hlen : (joinLines ls ++ crlf).length < 2 ^ 63) (lines : List Bytes)
    (hbuf : buf <+: joinLines ls ++ crlf) (hlt : buf.length < (joinLines ls ++ crlf).length) :
    splitLines lines buf = .error .throws := by
  induction ls generalizing lines buf with
  | nil =>
      refine splitLines_notMem ?_ (hlt.trans hlen)
      exact notMem_of_prefix (x := [13]) (by decide) hbuf (Nat.lt_succ_iff.mp hlt)
  | cons l ls ih =>
      have hcons : joinLines (l :: ls) ++ crlf = l ++ crlf ++ (joinLines ls ++ crlf) := by
        rw [← List.append_assoc]
        rfl
      have hl := hls l List.mem_cons_self
      have htotal : (l ++ crlf).length = l.length + 2 := List.length_append
      by_cases hend : buf.length ≤ l.length + 1
      · refine splitLines_notMem ?_ (hlt.trans hlen)
        rw [hcons, List.append_assoc] at hbuf
        refine notMem_of_prefix (x := l ++ [13]) (y := 10 :: (joinLines ls ++ crlf)) ?_ ?_ ?_
        · simp [hl.2]
        · simpa [crlf] using hbuf
        · rwa [List.length_append]
      · rw [hcons] at hbuf hlt hlen
        obtain ⟨buf', rfl⟩ : l ++ crlf <+: buf :=
          List.prefix_of_prefix_length_le (List.prefix_append ..) hbuf (by omega)
        have hsplit : ∀ x, (l ++ crlf ++ x).length = (l ++ crlf).length + x.length :=
          fun _ => List.length_append
        rw [hsplit] at hlt hlen
        rw [hsplit] at hlt
        rw [splitLines_line hl (by omega)]
        exact ih (fun k hk => hls k (List.mem_cons_of_mem l hk)) (by omega) _
          ((List.prefix_append_right_inj _).mp hbuf) (by omega)

/-- What is read is a beginning of what is there. -/
theorem Socket.readSome_append (s : Socket) (n : ℕ) :
    (s.readSome n).1 ++ (s.readSome n).2.bytes = s.bytes :=
  List.take_append_drop ..

/-- What `read_resp_header` does after its first `read_some`. -/
theorem readRespHeader_eq (s : Socket) :
    readRespHeader (2 ^ 16) s =
      match splitLines [] (s.readSome (2 ^ 16)).1 with
      | .error f => .error f
      | .ok (.blank lines buf) => .ok ((lines, buf), (s.readSome (2 ^ 16)).2)
      | .ok (.more lines buf) =>
          if (s.readSome (2 ^ 16)).1 = [] then .error .spins
          else readHeaderLoop (2 ^ 16) lines buf (s.readSome (2 ^ 16)).2 := by
  rw [readRespHeader, readHeaderLoop]
  rfl

/-- A first read that brings all lines. -/
theorem readRespHeader_of_le (hls : ∀ l ∈ ls, HeaderLine l)
    (hlen : (joinLines ls ++ crlf).length < 2 ^ 63) {s : Socket}
    (hs : s.bytes = joinLines ls ++ crlf ++ rest)
    (h : (joinLines ls ++ crlf).length ≤ (s.readSome (2 ^ 16)).1.length) :
    ∃ part s', readRespHeader (2 ^ 16) s = .ok ((ls, part), s') ∧ part ++ s'.bytes = rest := by
  have hpre := s.readSome_append (2 ^ 16)
  rw [hs] at hpre
  obtain ⟨part, hpart⟩ : joinLines ls ++ crlf <+: (s.readSome (2 ^ 16)).1 :=
    List.prefix_of_prefix_length_le (List.prefix_append ..) ⟨_, hpre⟩ h
  rw [List.length_append] at hlen
  have hsplit := splitLines_whole hls (by omega) [] part
  refine ⟨part, (s.readSome (2 ^ 16)).2, ?_, ?_⟩
  · rw [readRespHeader_eq, ← hpart, hsplit]
    rfl
  · rw [← hpart, List.append_assoc] at hpre
    exact List.append_cancel_left hpre

/-- A first read that does not. -/
theorem readRespHeader_of_lt (hls : ∀ l ∈ ls, HeaderLine l)
    (hlen : (joinLines ls ++ crlf).length < 2 ^ 63) {s : Socket}
    (hs : s.bytes = joinLines ls ++ crlf ++ rest)
    (h : (s.readSome (2 ^ 16)).1.length < (joinLines ls ++ crlf).length) :
    readRespHeader (2 ^ 16) s = .error .throws := by
  have hpre := s.readSome_append (2 ^ 16)
  rw [hs] at hpre
  have hfirst : (s.readSome (2 ^ 16)).1 <+: joinLines ls ++ crlf :=
    List.prefix_of_prefix_length_le ⟨_, hpre⟩ (List.prefix_append ..) h.le
  rw [readRespHeader_eq, splitLines_part hls hlen [] hfirst h]

end Split

/-! ## Content length -/

/-- The name of the header line is `Content-Length`, in any case. -/
def IsContentLength (l : Bytes) : Prop :=
  ∃ key val, l = key ++ 58 :: val ∧ key.map toLower = contentLength

/-- The value of the header line is a number, with white space around it. -/
def SaysLength (l : Bytes) (n : ℕ) : Prop :=
  ∃ key sp ds tr, l = key ++ 58 :: (sp ++ (ds ++ tr)) ∧ key.map toLower = contentLength ∧
    (∀ c ∈ sp, isSpace c) ∧ Digits ds ∧ (∀ c ∈ tr, isSpace c) ∧ value ds = n

section ContentLength

variable {l key val : Bytes} {ls : List Bytes} {n : ℕ}

/-- There is no colon in the name. -/
theorem colon_notMem (h : key.map toLower = contentLength) : 58 ∉ key := by
  intro hmem
  have hlower : toLower 58 ∈ key.map toLower := List.mem_map_of_mem hmem
  rw [h] at hlower
  revert hlower
  decide

theorem isSpace_ne_zero {c : UInt8} (h : isSpace c) : c ≠ 0 := by
  rintro rfl
  exact absurd h (by decide)

theorem stops_of_space {tr : Bytes} (h : ∀ c ∈ tr, isSpace c) : Stops tr := by
  intro c hc
  have hspace := h c (List.mem_of_mem_head? hc)
  by_contra hdigit
  rw [Bool.not_eq_false] at hdigit
  rw [(digit_head hdigit).1] at hspace
  cases hspace

theorem httpContentLength_says (h : SaysLength l n) (hn : n < 2 ^ 31) (ls : List Bytes) :
    httpContentLength (l :: ls) = some n := by
  obtain ⟨key, sp, ds, tr, rfl, hkey, hsp, hds, htr, rfl⟩ := h
  have hfind : find 58 (key ++ 58 :: (sp ++ (ds ++ tr))) = key.length :=
    find_append (colon_notMem hkey) _
  have htrim : trim (sp ++ (ds ++ tr)) = ds ++ tr := by
    have hdrop : (sp ++ ([] ++ (ds ++ tr))).dropWhile isSpace = [] ++ (ds ++ tr) :=
      dropWhile_space hsp (.inl rfl) hds
    rwa [List.nil_append] at hdrop
  have hnul : NulFree (ds ++ tr) := by
    intro c hc
    rcases List.mem_append.mp hc with hc | hc
    · exact Address.nulFree_digits hds c hc
    · exact isSpace_ne_zero (htr c hc)
  have hscan : scanInt ([] ++ (ds ++ tr)) = some ((value ds : ℤ), tr) :=
    scanInt_digits (fun _ hc => absurd hc List.not_mem_nil) hds (stops_of_space htr) hn
  rw [List.nil_append] at hscan
  have hlen : key.length = 14 := by
    rw [← List.length_map toLower, hkey]
    rfl
  have hdrop : (key ++ 58 :: (sp ++ (ds ++ tr))).drop (key.length + 1) = sp ++ (ds ++ tr) := by
    simp
  rw [httpContentLength, hfind, if_neg (by rw [hlen]; decide), List.take_left, if_pos hkey, hdrop,
    htrim, cStr_eq_self hnul, hscan, Option.map_some, Option.some_inj]
  omega

theorem httpContentLength_other (h : ¬IsContentLength l) (ls : List Bytes) :
    httpContentLength (l :: ls) = httpContentLength ls := by
  rw [httpContentLength]
  by_cases hmem : 58 ∈ l
  · obtain ⟨key, val, rfl, hcolon⟩ := List.eq_append_cons_of_mem hmem
    have hkey : key.map toLower ≠ contentLength := fun hkey => h ⟨key, val, rfl, hkey⟩
    simp only [find_append hcolon, List.take_left, if_neg hkey, ite_self]
  · rw [find_of_notMem hmem, if_pos rfl]

/-- The first line of this name decides. -/
theorem httpContentLength_eq (hex : ∃ l ∈ ls, IsContentLength l)
    (hall : ∀ l ∈ ls, IsContentLength l → SaysLength l n) (hn : n < 2 ^ 31) :
    httpContentLength ls = some n := by
  induction ls with
  | nil => simp at hex
  | cons l ls ih =>
      by_cases hl : IsContentLength l
      · exact httpContentLength_says (hall l List.mem_cons_self hl) hn ls
      · rw [httpContentLength_other hl]
        obtain ⟨k, hk, hkl⟩ := hex
        rcases List.mem_cons.mp hk with rfl | hk
        · exact absurd hkl hl
        · exact ih ⟨k, hk, hkl⟩ fun k hk => hall k (List.mem_cons_of_mem l hk)

end ContentLength

/-! ## Well-formed responses -/

/-- A response: a status line with a code of three digits, header lines of which at least one is a
`Content-Length` and all that are give the length of the body, and the body. -/
structure HttpResponse where
  code : Bytes
  reason : Bytes
  headers : List Bytes
  body : Bytes
  code_digits : Digits code
  code_length : code.length = 3
  reason_line : 10 ∉ reason
  header_lines : ∀ l ∈ headers, HeaderLine l
  exists_length : ∃ l ∈ headers, IsContentLength l
  says_length : ∀ l ∈ headers, IsContentLength l → SaysLength l body.length
  body_length : body.length < 2 ^ 31
  header_length :
    (joinLines ((httpVersion ++ 32 :: (code ++ 32 :: reason)) :: headers) ++ crlf).length < 2 ^ 16

namespace HttpResponse

variable (r : HttpResponse)

/-- The status line. -/
def statusLine : Bytes := httpVersion ++ 32 :: (r.code ++ 32 :: r.reason)

/-- The status line and the header lines. -/
def lines : List Bytes := r.statusLine :: r.headers

/-- All up to the blank line. -/
def header : Bytes := joinLines r.lines ++ crlf

/-- What comes over the connection. -/
def encode : Bytes := r.header ++ r.body

/-- The response on a connection that gives at most `frag k` bytes in its `k`-th `read_some`. -/
def socket (frag : ℕ → ℕ) : Socket := ⟨r.encode, frag, 0⟩

theorem headerLine_statusLine : HeaderLine r.statusLine := by
  refine ⟨nofun, ?_⟩
  simp only [statusLine, List.mem_append, List.mem_cons, not_or]
  refine ⟨by decide, by decide, ?_, by decide, r.reason_line⟩
  intro hmem
  exact absurd (r.code_digits.2 10 hmem) (by decide)

theorem headerLine_lines : ∀ l ∈ r.lines, HeaderLine l := by
  intro l hl
  rcases List.mem_cons.mp hl with rfl | hl
  · exact r.headerLine_statusLine
  · exact r.header_lines l hl

/-- The status line is no `Content-Length`. -/
theorem httpContentLength_lines : httpContentLength r.lines = some r.body.length := by
  rw [lines, httpContentLength_other]
  · exact httpContentLength_eq r.exists_length r.says_length r.body_length
  · rintro ⟨key, val, heq, hkey⟩
    cases key with
    | nil => cases hkey
    | cons c key =>
        have hc : 72 = c := (List.cons.inj heq).1
        rw [← hc, List.map_cons] at hkey
        exact absurd (List.cons.inj hkey).1 (by decide)

theorem statusCode_statusLine : statusCode r.statusLine = .ok (value r.code : ℤ) := by
  have hnul : NulFree (httpVersion ++ 32 :: (r.code ++ [32])) := by
    intro c hc hzero
    rw [hzero] at hc
    simp only [List.mem_append, List.mem_cons, List.not_mem_nil, or_false] at hc
    rcases hc with hc | hc | hc | hc
    · exact absurd hc (by decide)
    · cases hc
    · exact Address.nulFree_digits r.code_digits 0 hc rfl
    · cases hc
  have hcStr : cStr r.statusLine = httpVersion ++ 32 :: (r.code ++ 32 :: cStr r.reason) := by
    have hsplit : r.statusLine = (httpVersion ++ 32 :: (r.code ++ [32])) ++ r.reason := by
      simp [statusLine]
    rw [hsplit, cStr, List.takeWhile_append_of_pos fun c hc => decide_eq_true (hnul c hc)]
    simp [cStr]
  have hword : scanWord (httpVersion ++ 32 :: (r.code ++ 32 :: cStr r.reason)) =
      some (httpVersion, 32 :: (r.code ++ 32 :: cStr r.reason)) := by
    refine scanWord_append (by decide) (by simp [httpVersion, isSpace]) ?_
    intro c hc
    obtain rfl : 32 = c := Option.some.inj hc
    decide
  have hlt : value r.code < 2 ^ 31 := by
    have hvalue := value_lt r.code_digits.2
    rw [r.code_length] at hvalue
    omega
  have hint : scanInt ([32] ++ (r.code ++ 32 :: cStr r.reason)) =
      some ((value r.code : ℤ), 32 :: cStr r.reason) :=
    scanInt_digits (by simp [isSpace]) r.code_digits (Address.stops_cons (by decide) _) hlt
  rw [List.singleton_append] at hint
  rw [statusCode, hcStr, hword]
  simp only [hint, Option.elim]
  rfl

/-- The bytes the first `read_some` of `read_resp_header` brings. -/
def first (frag : ℕ → ℕ) : Bytes := ((r.socket frag).readSome (2 ^ 16)).1

theorem length_joinLines_lt : (joinLines r.lines ++ crlf).length < 2 ^ 63 :=
  r.header_length.trans (by decide)

/-- A first read that brings the header. -/
theorem readRespHeader_whole {frag : ℕ → ℕ} (h : r.header.length ≤ (r.first frag).length) :
    ∃ part s, readRespHeader (2 ^ 16) (r.socket frag) = .ok ((r.lines, part), s) ∧
      part ++ s.bytes = r.body :=
  readRespHeader_of_le r.headerLine_lines r.length_joinLines_lt rfl h

/-- A first read that does not. -/
theorem readRespHeader_part {frag : ℕ → ℕ} (h : (r.first frag).length < r.header.length) :
    readRespHeader (2 ^ 16) (r.socket frag) = .error .throws :=
  readRespHeader_of_lt r.headerLine_lines r.length_joinLines_lt rfl h

/-- The rest of the body is read. -/
theorem httpGet_of_header {part : Bytes} {s s' : Socket}
    (h : readRespHeader (2 ^ 16) s = .ok ((r.lines, part), s'))
    (hpart : part ++ s'.bytes = r.body) :
    ∃ s'', httpGet s = .ok (((value r.code : ℤ), r.body), s'') := by
  have hbody : part.length + s'.bytes.length = r.body.length := by
    rw [← hpart, List.length_append]
  have hlt := r.body_length
  -- `body.size() - off`
  have hsub : (UInt64.ofNat r.body.length - UInt64.ofNat part.length).toNat = s'.bytes.length := by
    rw [← hbody, Nat.add_comm, UInt64.ofNat_add, UInt64.add_sub_cancel]
    exact UInt64.toNat_ofNat_of_lt' (show s'.bytes.length < 2 ^ 64 by omega)
  obtain ⟨s'', hread, -⟩ := (Cxx20.exact (2 ^ 31)).read_le (s := s') (n := s'.bytes.length)
    (by omega) le_rfl
  have hread' : Cxx20.read s'.bytes.length s' = .ok (s'.bytes, s'') := by
    rwa [List.take_length] at hread
  have htake : part.take r.body.length ++ s'.bytes = r.body := by
    rw [List.take_of_length_le (by omega), hpart]
  refine ⟨s'', ?_⟩
  have hlines := r.httpContentLength_lines
  rw [lines] at h hlines
  simp only [httpGet, bind, StateT.bind, Except.bind, h, r.statusCode_statusLine, hlines, hsub]
  simp only [liftM, monadLift, MonadLift.monadLift, StateT.lift, bind, Except.bind, pure,
    Except.pure]
  rw [if_neg (by omega), StateT.bind, hread']
  simp only [bind, Except.bind, htake]
  rfl

/-- `read_resp_header` gives the lines and the part of the body that it has read, and `http_get`
gives the status code and the body. -/
structure Understood (frag : ℕ → ℕ) : Prop where
  header : ∃ part s, readRespHeader (2 ^ 16) (r.socket frag) = .ok ((r.lines, part), s) ∧
    part ++ s.bytes = r.body
  get : ∃ s, httpGet (r.socket frag) = .ok (((value r.code : ℤ), r.body), s)

theorem Understood.le {frag : ℕ → ℕ} (h : r.Understood frag) :
    r.header.length ≤ (r.first frag).length := by
  by_contra hlt
  obtain ⟨part, s, heq, -⟩ := h.header
  rw [r.readRespHeader_part (Nat.lt_of_not_le hlt)] at heq
  cases heq

/-- **When a response is understood.** When the first `read_some` brings the whole header. -/
theorem understood_iff (frag : ℕ → ℕ) :
    r.Understood frag ↔ r.header.length ≤ (r.first frag).length := by
  constructor
  · exact Understood.le r
  · intro h
    obtain ⟨part, s, heq, hpart⟩ := r.readRespHeader_whole h
    exact ⟨⟨part, s, heq, hpart⟩, r.httpGet_of_header heq hpart⟩

end HttpResponse

/-- `200`, one header line and a body of one byte. -/
def smallResponse : HttpResponse where
  code := [50, 48, 48]
  reason := [79, 75]
  headers := [[67, 111, 110, 116, 101, 110, 116, 45, 76, 101, 110, 103, 116, 104, 58, 32, 49]]
  body := [120]
  code_digits := ⟨nofun, by simp [isDigit]⟩
  code_length := rfl
  reason_line := by decide
  header_lines := by
    intro l hl
    rw [List.mem_singleton.mp hl]
    exact ⟨nofun, by decide⟩
  exists_length := ⟨_, List.mem_singleton_self _,
    [67, 111, 110, 116, 101, 110, 116, 45, 76, 101, 110, 103, 116, 104], [32, 49], rfl, by decide⟩
  says_length := by
    intro l hl _
    rw [List.mem_singleton.mp hl]
    exact ⟨[67, 111, 110, 116, 101, 110, 116, 45, 76, 101, 110, 103, 116, 104], [32], [49], [], rfl,
      by decide, by simp [isSpace], ⟨nofun, by simp [isDigit]⟩, nofun, rfl⟩
  body_length := by decide
  header_length := by decide

/-- It comes byte by byte. -/
theorem not_understood_slow : ¬smallResponse.Understood fun _ => 1 :=
  fun h => absurd h.le (by decide)

end StdmlCollective
