import StdmlCollective.Propose
import StdmlCollective.Resize

/-!
# Resizing by way of the config server

`peer::resize(sess, new_size)` puts the resized cluster on the config server as JSON and then polls
the server with `get_cluster_config`. This asks twice: by `http_get`, of which it uses the status
code only, and by `GoReadConfigServer`, which decodes the JSON and leaves the config, in the form
that `cluster_config::from` reads, in a buffer of `2 ^ 16` bytes.

Not everything that is put comes back. An address from `128.0.0.0` on is printed as a negative
number, and then nothing is read; and a config that is too large for the buffer is a panic of the
Go runtime.
-/

namespace StdmlCollective

open Json LittleEndian Packed Spmd

/-! ## Go -/

/-- What `elastic.go` uses of other packages: `json.NewDecoder(f).Decode` into a `plan.Cluster`, none
when it returns an error, and `plan.Cluster.Bytes`. -/
structure GoPlan where
  decode : Bytes → Option ClusterConfig
  bytes : ClusterConfig → Bytes

/-- The JSON object of a peer. -/
def peerNumbers (p : ℤ × ℤ) : Value := .obj [(ipv4Key, .int p.1), (portKey, .int p.2)]

/-- A number that the type of its field, `uint32` or `uint16`, does not have is an error. -/
def asPeerId (p : ℤ × ℤ) : Option PeerId :=
  if (0 ≤ p.1 ∧ p.1 < 2 ^ 32) ∧ 0 ≤ p.2 ∧ p.2 < 2 ^ 16 then
    some ⟨UInt32.ofNat p.1.toNat, UInt16.ofNat p.2.toNat⟩
  else none

/-- What is known of the packages. An object whose members are two arrays of peers is decoded peer by
peer, and the bytes of a cluster are those of its runners and then those of its workers, as
`parseCluster` reads them. -/
structure GoPlan.Documented (plan : GoPlan) : Prop where
  decode : ∀ (text : Bytes) (rs ws : List (ℤ × ℤ)),
    parse text = some (.obj [(runnersKey, .arr (rs.map peerNumbers)),
      (workersKey, .arr (ws.map peerNumbers))]) →
    plan.decode text = do return ⟨← rs.mapM asPeerId, ← ws.mapM asPeerId⟩
  bytes : ∀ c, plan.bytes c = peerIdRecord.pack c.runners ++ peerIdRecord.pack c.workers

/-- `GoReadConfigServer`, when `utils.OpenURL` gives `body`: what it returns and the buffer
afterwards. None is a panic, of the slice `out[8:8+len(bs)]`. -/
def goReadConfigServer (plan : GoPlan) (body : Option Bytes) (buf : Bytes) : Option (ℤ × Bytes) :=
  match body.bind plan.decode with
  | none => some (-1, buf)
  | some cluster =>
      let bs := plan.bytes cluster
      if buf.length < 8 + bs.length then none
      else some (bs.length + 8, leBytes 4 cluster.runners.length ++
        leBytes 4 cluster.workers.length ++ bs ++ buf.drop (8 + bs.length))

/-! ## `get_cluster_config` -/

/-- The config server as its clients see it: the connection on which it answers a request, by host,
port and the text of the request, and what `utils.OpenURL` reads. -/
structure ConfigServer where
  answer : Bytes → UInt16 → Bytes → Socket
  openURL : Bytes → Option Bytes

/-- How `get_cluster_config` does not return: `http_get` does not, the Go runtime panics, or `value`
of an empty `optional` throws. -/
inductive ConfigFault where
  | http (f : Fault)
  | panics
  | badOptionalAccess

/-- `std::vector<std::byte> buf(1 << 16)`. -/
def configBuffer : Bytes := List.replicate (2 ^ 16) 0

theorem length_configBuffer : configBuffer.length = 2 ^ 16 := List.length_replicate

/-- `"GET"`. -/
def getMethod : Bytes := [71, 69, 84]

/-- `get_cluster_config`, with `KUNGFU_CONFIG_SERVER`. -/
def getClusterConfig (plan : GoPlan) (url : Bytes) (server : ConfigServer) :
    Except ConfigFault (Option ClusterConfig) :=
  match httpParseUrl url with
  | none => .ok none
  | some (host, port, path) =>
      let request := httpMakeRequestTo getMethod host port.toUInt32.toInt32 path
      match httpGet (server.answer (cStr host) port request) with
      | .error f => .error (.http f)
      | .ok ((code, _), _) =>
          if code ≠ 200 then .ok none
          else
            match goReadConfigServer plan (server.openURL url) configBuffer with
            | none => .error .panics
            | some (len, buf) =>
                if len ≤ 0 then .ok none
                else
                  match ClusterConfig.from (buf.take len.toNat) with
                  | some config => .ok (some config)
                  | none => .error .badOptionalAccess

/-- The server is up and has the text `text`: it answers with the status 200 and the text, in such a
way that the first `read_some` brings the whole header, and `utils.OpenURL` reads the text. -/
structure ConfigServer.Serves (server : ConfigServer) (url host : Bytes) (port : UInt16)
    (path text : Bytes) : Prop where
  answer : ∃ (r : HttpResponse) (frag : ℕ → ℕ), r.code = [50, 48, 48] ∧ r.body = text ∧
    r.header.length ≤ (r.first frag).length ∧
      server.answer (cStr host) port (httpMakeRequestTo getMethod host port.toUInt32.toInt32 path) =
        r.socket frag
  openURL : server.openURL url = some text

/-- The entries for which the buffer has room. -/
def ClusterConfig.Fits (c : ClusterConfig) : Prop := c.runners.length + c.workers.length ≤ 10921

instance (c : ClusterConfig) : Decidable c.Fits := inferInstanceAs (Decidable (_ ≤ _))

theorem ClusterConfig.Fits.small {c : ClusterConfig} (h : c.Fits) : c.Small := by
  unfold Fits at h
  unfold Small
  omega

section Read

variable {plan : GoPlan} {url host path text : Bytes} {port : UInt16} {server : ConfigServer}

/-- What the buffer holds is `cluster_config::bytes`. -/
theorem goReadConfigServer_eq (hplan : plan.Documented) {c : ClusterConfig}
    (hc : plan.decode text = some c) (buf : Bytes) :
    goReadConfigServer plan (some text) buf =
      if buf.length < c.bytes.length then none
      else some ((c.bytes.length : ℤ), c.bytes ++ buf.drop c.bytes.length) := by
  have hlen : 8 + (plan.bytes c).length = c.bytes.length := by
    rw [hplan.bytes, ClusterConfig.bytes]
    simp only [List.length_append, length_leBytes]
    omega
  have hbytes : leBytes 4 c.runners.length ++ leBytes 4 c.workers.length ++ plan.bytes c =
      c.bytes := by
    rw [hplan.bytes, ClusterConfig.bytes, List.append_assoc]
  simp only [goReadConfigServer, Option.bind_some, hc, hbytes, hlen]
  have hint : ((plan.bytes c).length : ℤ) + 8 = c.bytes.length := by omega
  rw [hint]

theorem httpGet_serves (hserves : server.Serves url host port path text) :
    ∃ s, httpGet (server.answer (cStr host) port
      (httpMakeRequestTo getMethod host port.toUInt32.toInt32 path)) = .ok ((200, text), s) := by
  obtain ⟨r, frag, hcode, hbody, hfirst, hanswer⟩ := hserves.answer
  obtain ⟨s, hget⟩ := ((r.understood_iff frag).mpr hfirst).get
  refine ⟨s, ?_⟩
  rw [hanswer, hget, hcode, hbody]
  rfl

/-- **What `get_cluster_config` returns** when the server is up: none when the text is not decoded,
and otherwise the config, as long as it fits into the buffer. `value` never throws. -/
theorem getClusterConfig_eq (hplan : plan.Documented) (hurl : Url url host port path)
    (hlen : url.length < 2 ^ 63) (hserves : server.Serves url host port path text) :
    getClusterConfig plan url server =
      match plan.decode text with
      | none => .ok none
      | some c => if c.Fits then .ok (some c) else .error .panics := by
  obtain ⟨s, hget⟩ := httpGet_serves hserves
  have hparse := (httpParseUrl_iff hlen).mpr hurl
  simp only [getClusterConfig, hparse, hget, ne_eq, not_true_eq_false, if_false,
    hserves.openURL]
  cases hdecode : plan.decode text with
  | none => simp [goReadConfigServer, hdecode]
  | some c =>
      rw [goReadConfigServer_eq hplan hdecode, length_configBuffer]
      have hsize := c.length_bytes
      by_cases hfits : c.Fits
      · have hle : ¬2 ^ 16 < c.bytes.length := by
          unfold ClusterConfig.Fits at hfits
          omega
        have hpos : ¬(c.bytes.length : ℤ) ≤ 0 := by omega
        simp only [if_neg hle, if_neg hpos, Int.toNat_natCast, List.take_left,
          ClusterConfig.from_bytes hfits.small, if_pos hfits]
      · have hlt : 2 ^ 16 < c.bytes.length := by
          unfold ClusterConfig.Fits at hfits
          omega
        simp only [if_pos hlt, if_neg hfits]

/-! ## What is put is read -/

/-- The address is below `128.0.0.0`. -/
def PeerId.Low (id : PeerId) : Prop := id.ipv4.toNat < 2 ^ 31

instance (id : PeerId) : Decidable id.Low := inferInstanceAs (Decidable (_ < _))

/-- All addresses are. -/
def ClusterConfig.Low (c : ClusterConfig) : Prop :=
  (∀ id ∈ c.runners, id.Low) ∧ ∀ id ∈ c.workers, id.Low

instance (c : ClusterConfig) : Decidable c.Low := inferInstanceAs (Decidable (_ ∧ _))

/-- The numbers that are printed for a peer. -/
def PeerId.numbers (id : PeerId) : ℤ × ℤ := (id.ipv4.toInt32.toInt, id.port.toUInt32.toInt32.toInt)

/-- An address from `128.0.0.0` on is printed as a negative number, which is no `uint32`. -/
theorem asPeerId_numbers (id : PeerId) :
    asPeerId id.numbers = if id.Low then some id else none := by
  have hipv4 := id.ipv4.toNat_lt
  have hport := id.port.toNat_lt
  rw [asPeerId, PeerId.numbers, toInt_port, toInt_ipv4]
  by_cases hlow : id.ipv4.toNat < 2 ^ 31
  · simp only [if_pos hlow, Int.toNat_natCast, UInt32.ofNat_toNat, UInt16.ofNat_toNat]
    rw [if_pos (by omega), if_pos (show id.Low from hlow)]
  · simp only [if_neg hlow]
    rw [if_neg (by omega), if_neg (show ¬id.Low from hlow)]

theorem mapM_asPeerId (ids : List PeerId) :
    (ids.map PeerId.numbers).mapM asPeerId = if ∀ id ∈ ids, id.Low then some ids else none := by
  induction ids with
  | nil => rfl
  | cons id ids ih =>
      rw [List.map_cons, List.mapM_cons, ih, asPeerId_numbers]
      by_cases hid : id.Low
      · by_cases hids : ∀ id ∈ ids, id.Low
        · rw [if_pos hids, if_pos hid, if_pos (List.forall_mem_cons.mpr ⟨hid, hids⟩)]
          rfl
        · simp [hid, hids]
      · simp [hid]

theorem decode_json (hplan : plan.Documented) (c : ClusterConfig) :
    plan.decode c.json = if c.Low then some c else none := by
  have hnumbers : ∀ ids : List PeerId,
      ids.map peerValue = (ids.map PeerId.numbers).map peerNumbers := by
    intro ids
    rw [List.map_map]
    rfl
  have hparse : parse c.json = some c.jsonValue := c.reads_json.parse
  rw [ClusterConfig.jsonValue, hnumbers, hnumbers] at hparse
  rw [hplan.decode _ _ _ hparse, mapM_asPeerId, mapM_asPeerId]
  by_cases hr : ∀ id ∈ c.runners, id.Low
  · by_cases hw : ∀ id ∈ c.workers, id.Low
    · rw [if_pos hr, if_pos hw, if_pos ⟨hr, hw⟩]
      rfl
    · simp [ClusterConfig.Low, hw]
  · simp [ClusterConfig.Low, hr]

end Read

/-! ### A server and packages -/

/-- `200`. -/
def okCode : Bytes := [50, 48, 48]

theorem digits_okCode : Scanf.Digits okCode :=
  ⟨by simp [okCode], by simp [okCode, Decimal.isDigit]⟩

theorem length_okCode : okCode.length = 3 := rfl

/-- `OK`. -/
def okReason : Bytes := [79, 75]

theorem lineEnd_notMem_okReason : 10 ∉ okReason := by simp [okReason]

/-- The header line with the length of a body. -/
def lengthLine (body : Bytes) : Bytes := contentLengthKey ++ [58, 32] ++ toDecimal body.length

theorem headerLine_lengthLine (body : Bytes) : ∀ l ∈ [lengthLine body], HeaderLine l := by
  simp [lengthLine, HeaderLine, contentLengthKey, lineEnd_notMem_toDecimal]

theorem isContentLength_lengthLine (body : Bytes) : ∃ l ∈ [lengthLine body], IsContentLength l :=
  ⟨_, List.mem_singleton_self _, contentLengthKey, 32 :: toDecimal body.length,
    by simp [lengthLine], by decide⟩

theorem saysLength_lengthLine (body : Bytes) :
    ∀ l ∈ [lengthLine body], IsContentLength l → SaysLength l body.length := by
  intro l hl _
  rw [List.mem_singleton.mp hl]
  exact saysLength_toDecimal body.length

theorem length_okHeader {body : Bytes} (h : body.length < 2 ^ 31) :
    (joinLines ((httpVersion ++ 32 :: (okCode ++ 32 :: okReason)) :: [lengthLine body]) ++
      crlf).length < 2 ^ 16 := by
  have hdec : (toDecimal body.length).length ≤ 10 := length_toDecimal_lt (by omega)
  simp only [joinLines, okCode, okReason, httpVersion, lengthLine, contentLengthKey, crlf,
    List.flatMap_cons, List.flatMap_nil, List.length_append, List.length_cons, List.length_nil]
  omega

/-- `200 OK` with this body. -/
def okResponse (body : Bytes) (h : body.length < 2 ^ 31) : HttpResponse where
  code := okCode
  reason := okReason
  headers := [lengthLine body]
  body := body
  code_digits := digits_okCode
  code_length := length_okCode
  reason_line := lineEnd_notMem_okReason
  header_lines := headerLine_lengthLine body
  exists_length := isContentLength_lengthLine body
  says_length := saysLength_lengthLine body
  body_length := h
  header_length := length_okHeader h

/-- A server that has this text, and sends as much at a time as is asked for. -/
def serverOf (text : Bytes) (h : text.length < 2 ^ 31) : ConfigServer where
  answer _ _ _ := (okResponse text h).socket fun _ => 2 ^ 16
  openURL _ := some text

/-- The numbers of a peer. -/
def asNumbers : Value → Option (ℤ × ℤ)
  | .obj [(_, .int x), (_, .int y)] => some (x, y)
  | _ => none

/-- A cluster. -/
def asCluster : Value → Option ClusterConfig
  | .obj [(_, .arr rs), (_, .arr ws)] => do
      let rs ← rs.mapM asNumbers
      let ws ← ws.mapM asNumbers
      return ⟨← rs.mapM asPeerId, ← ws.mapM asPeerId⟩
  | _ => none

/-- Packages that do what is documented. -/
def goPlan : GoPlan where
  decode text := (parse text).bind asCluster
  bytes c := peerIdRecord.pack c.runners ++ peerIdRecord.pack c.workers

theorem goPlan_documented : goPlan.Documented where
  decode text rs ws h := by
    have hnumbers : ∀ ps : List (ℤ × ℤ), (ps.map peerNumbers).mapM asNumbers = some ps := by
      intro ps
      induction ps with
      | nil => rfl
      | cons p ps ih =>
          rw [List.map_cons, List.mapM_cons, ih]
          rfl
    simp [goPlan, h, asCluster, hnumbers]
  bytes c := rfl

/-- The cluster after the removal of a worker. -/
def shrunkCluster : ClusterConfig := ⟨[⟨2130706433, 38080⟩], [⟨2130706433, 10000⟩]⟩

theorem length_json_shrunkCluster : shrunkCluster.json.length < 2 ^ 31 := by decide +kernel

theorem serves_shrunkCluster :
    (serverOf shrunkCluster.json length_json_shrunkCluster).Serves smallUrl [104] 9100 [47, 99]
      shrunkCluster.json where
  answer := ⟨_, _, rfl, rfl, by decide +kernel, rfl⟩
  openURL := rfl

/-- `peer::resize(sess, new_size)`: what is put on the config server, and the polling, for at most
`f` rounds, `get` being what `get_cluster_config` returns. -/
def resizeTo (url : Bytes) (self : PeerId) (sess : SessionInfo) (newSize : ℕ)
    (get : ℕ → Option ServedConfig) (f : ℕ) :
    Except ResizeFault (Option Proposal × SessionProg (Option Resized)) := do
  let proposal ← proposeNewSize url sess.cluster newSize
  return (proposal, resize self sess get f)

section Resize

variable {plan : GoPlan} {url host path : Bytes} {port : UInt16} {sess : SessionInfo}
variable {c : ClusterConfig} {n : ℕ}

/-- What a worker compares in a round: the config on the server, if it comes back, and else the
cluster of the session. -/
theorem valueOr_eq (hplan : plan.Documented) (hurl : Url url host port path)
    (hlen : url.length < 2 ^ 63) {server : ConfigServer} {config : ClusterConfig}
    (hserves : server.Serves url host port path config.json) {got : Option ServedConfig}
    (hget : getClusterConfig plan url server = .ok (got.map Subtype.val)) :
    (sess.valueOr got).1 = if config.Low then config else sess.cluster := by
  rw [getClusterConfig_eq hplan hurl hlen hserves, decode_json hplan] at hget
  by_cases hlow : config.Low
  · simp only [if_pos hlow] at hget ⊢
    split at hget
    · cases got with
      | none => simp at hget
      | some served => simpa [SessionInfo.valueOr, eq_comm] using hget
    · cases hget
  · simp only [if_neg hlow] at hget ⊢
    cases got with
    | none => rfl
    | some served => simp at hget

end Resize

end StdmlCollective
