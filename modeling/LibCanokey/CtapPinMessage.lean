import LibCanokey.CtapClientPin
import LibCanokey.CtapCoseRoundTrip
import LibCanokey.CtapReading

/-! # ClientPIN messages, read back

The map of a request as one list of optional members, which the parser reads as it was written,
and the payloads of encrypted members. -/
namespace CtapPinMessage

open BigEndian CheckedCursor ListTraversal KeyedSorting ProtocolError
open CtapCbor CtapCborLanguage CtapCborEncoder CtapCborParser CtapCose CtapCoseReading
open CtapCoseRoundTrip CtapMessage CtapAuthData CtapHmacSecret CtapFields CtapReading CtapClientPin

/-! ## Maps that hold maps -/

/-- Fields under increasing one-byte keys, whose values leave a level and are no longer than so
many bytes. -/
structure Orderly (most : ℕ) (fields : List (ℕ × Value)) : Prop where
  keys : (fields.map Prod.fst).Pairwise (· < ·)
  small : ∀ f ∈ fields, f.1 < 24
  values : ∀ f ∈ fields, Good 63 f.2 ∧ Ordered f.2 ∧ (wire f.2).length ≤ most
  few : fields.length ≤ 8

section orderly

variable {most : ℕ} {fields : List (ℕ × Value)}

theorem Orderly.good (h : Orderly most fields) :
    Good maxDepth (fieldMap fields) ∧ Ordered (fieldMap fields) := by
  have hcanonical : ∀ f ∈ fields, canonical (uint f.1) = [UInt8.ofNat f.1] :=
    fun f hf => canonical_key (h.small f hf)
  have hpairs := List.pairwise_map.mp h.keys
  have hfew := h.few
  constructor
  · refine (@good_map 63 _).mpr ⟨by rw [List.length_map]; omega, ?_, ?_⟩
    · rw [List.map_map, List.Nodup, List.pairwise_map]
      refine hpairs.imp_of_mem ?_
      intro f g hf hg hlt heq
      dsimp only [Function.comp_apply] at heq
      rw [hcanonical f hf, hcanonical g hg] at heq
      have := key_injective (h.small f hf) (h.small g hg) (List.head_eq_of_cons_eq heq)
      omega
    · intro e he
      obtain ⟨f, hf, rfl⟩ := List.mem_map.mp he
      exact ⟨(good_scalar (v := uint f.1) trivial).mpr trivial, (h.values f hf).1⟩
  · refine everywhere_map.mpr ⟨?_, ?_⟩
    · rw [OrderedAt, List.pairwise_map]
      refine hpairs.imp_of_mem ?_
      intro f g hf hg hlt
      rw [KeyLe, hcanonical f hf, hcanonical g hg]
      exact keyOrder_small hlt (h.small g hg)
    · intro e he
      obtain ⟨f, hf, rfl⟩ := List.mem_map.mp he
      exact ⟨(everywhere_scalar (v := uint f.1) trivial).mpr trivial, (h.values f hf).2.1⟩

theorem Orderly.encode (h : Orderly most fields) :
    CtapCbor.encode (fieldMap fields) = .ok (wire (fieldMap fields)) := by
  obtain ⟨hgood, hordered⟩ := h.good
  rw [encode_good (le_refl _) hgood, canonical, sort_eq_self.mpr hordered]

theorem Orderly.length (h : Orderly most fields) :
    (wire (fieldMap fields)).length ≤ 9 + 8 * (most + 1) := by
  have hfew := h.few
  have hentries : ∀ e ∈ fields.map fun f => (uint f.1, f.2), (entryWire e).length ≤ most + 1 := by
    intro e he
    obtain ⟨f, hf, rfl⟩ := List.mem_map.mp he
    have hkey : wire (uint f.1) = [UInt8.ofNat f.1] := by
      have hcanonical := canonical_key (h.small f hf)
      rwa [canonical, sort_scalar (v := uint f.1) trivial] at hcanonical
    have hvalue := (h.values f hf).2.2
    rw [entryWire, hkey]
    simp only [List.length_append, List.length_singleton]
    omega
  have hlength := length_wire_map_le (by rw [List.length_map]; omega) hentries
  rw [List.length_map] at hlength
  have hmost : fields.length * (most + 1) ≤ 8 * (most + 1) := Nat.mul_le_mul_right _ hfew
  rw [fieldMap]
  omega

/-- The parser reads an orderly map back. -/
theorem Orderly.decoded (h : Orderly most fields) (hmost : 9 + 8 * (most + 1) ≤ usizeMax) :
    decoded (wire (fieldMap fields)) = .ok (fieldMap fields) := by
  obtain ⟨hgood, _⟩ := h.good
  have hparse := (parse_eq_ok (Nat.le_trans h.length hmost)).mpr
    ⟨encodes_iff.mpr ⟨hgood.storable, rfl⟩, hgood.depth, hgood.distinct⟩
  rw [CtapMessage.decoded, hparse]

end orderly

/-! ## The values of a request -/

theorem scalar_orderly {v : Value} {n : ℕ} (hs : Scalar v) (ho : OrderedAt v)
    (hbody : (bodyOf v).length ≤ n) (hn : n < 2 ^ 64) :
    Good 63 v ∧ Ordered v ∧ (wire v).length ≤ 9 + n := by
  have hstorable := storable_of_body hs (Nat.lt_of_le_of_lt hbody hn)
  have hwire := length_wire_le hstorable
  exact ⟨(good_scalar hs).mpr hstorable, (everywhere_scalar hs).mpr ho, by omega⟩

theorem uint_orderly (n : ℕ) :
    Good 63 (uint n) ∧ Ordered (uint n) ∧ (wire (uint n)).length ≤ 9 :=
  scalar_orderly (n := 0) trivial trivial (Nat.le_refl 0) (by decide)

theorem bytes_orderly {raw : Bytes} {n : ℕ} (h : raw.length ≤ n) (hn : n < 2 ^ 64) :
    Good 63 (.bytes raw) ∧ Ordered (.bytes raw) ∧ (wire (.bytes raw)).length ≤ 9 + n :=
  scalar_orderly trivial trivial h hn

/-- The labels of a key are written in order. -/
theorem labels_ordered : ([1, 3, -1, -2, -3].map Value.fromInt).Pairwise fun k l =>
    (keyOrder (canonical k) (canonical l)).isLE = true := by decide

theorem key_orderly (x y : ByteArrayOf 32) :
    Good 63 (CoseKey.p256 .ecdhEsHkdf256 x y).toValue ∧
      Ordered (CoseKey.p256 .ecdhEsHkdf256 x y).toValue ∧
      (wire (CoseKey.p256 .ecdhEsHkdf256 x y).toValue).length ≤ 300 := by
  have hint (n : ℤ) : Good 62 (.fromInt n) ∧ Ordered (.fromInt n) ∧
      (wire (.fromInt n)).length ≤ 9 := by
    have hs := scalar_fromInt n
    have hwire := length_wire_le (storable_fromInt n)
    rw [body_fromInt] at hwire
    refine ⟨(good_scalar hs).mpr (storable_fromInt n), (everywhere_scalar hs).mpr ?_, hwire⟩
    cases hv : Value.fromInt n <;> first | trivial | (rw [hv] at hs; exact hs.elim)
  have hcoordinate (x : ByteArrayOf 32) : Good 62 (.bytes x.1) ∧ Ordered (.bytes x.1) ∧
      (wire (.bytes x.1)).length ≤ 41 := by
    have hlen : x.1.length < 2 ^ 64 := by rw [x.2]; decide
    have hwire := length_wire_le (v := .bytes x.1) hlen
    rw [bodyOf, x.2] at hwire
    exact ⟨(good_scalar (v := .bytes x.1) trivial).mpr hlen,
      (everywhere_scalar (v := .bytes x.1) trivial).mpr trivial, hwire⟩
  have hentries : ∀ e ∈ [(Value.fromInt 1, Value.fromInt 2),
      (.fromInt 3, .fromInt CoseAlgorithm.ecdhEsHkdf256.id), (.fromInt (-1), .fromInt 1),
      (.fromInt (-2), .bytes x.1), (.fromInt (-3), .bytes y.1)],
      (Good 62 e.1 ∧ Ordered e.1 ∧ (wire e.1).length ≤ 9) ∧
        Good 62 e.2 ∧ Ordered e.2 ∧ (wire e.2).length ≤ 41 := by
    intro e he
    simp only [List.mem_cons, List.not_mem_nil, or_false] at he
    have hweak (n : ℤ) : Good 62 (.fromInt n) ∧ Ordered (.fromInt n) ∧
        (wire (.fromInt n)).length ≤ 41 :=
      ⟨(hint n).1, (hint n).2.1, Nat.le_trans (hint n).2.2 (by decide)⟩
    rcases he with rfl | rfl | rfl | rfl | rfl
    · exact ⟨hint 1, hweak 2⟩
    · exact ⟨hint 3, hweak CoseAlgorithm.ecdhEsHkdf256.id⟩
    · exact ⟨hint (-1), hweak 1⟩
    · exact ⟨hint (-2), hcoordinate x⟩
    · exact ⟨hint (-3), hcoordinate y⟩
  have hcount : (5 : ℕ) < 2 ^ 64 := by decide
  refine ⟨good_map.mpr ⟨hcount, ?_, ?_⟩, everywhere_map.mpr ⟨?_, ?_⟩, ?_⟩
  · exact distinct_labels
  · exact fun e he => ⟨(hentries e he).1.1, (hentries e he).2.1⟩
  · have hordered : ([(Value.fromInt 1, Value.fromInt 2),
        (.fromInt 3, .fromInt CoseAlgorithm.ecdhEsHkdf256.id), (.fromInt (-1), .fromInt 1),
        (.fromInt (-2), .bytes x.1), (.fromInt (-3), .bytes y.1)].map Prod.fst).Pairwise
          fun k l => (keyOrder (canonical k) (canonical l)).isLE = true := labels_ordered
    rwa [List.pairwise_map] at hordered
  · exact fun e he => ⟨(hentries e he).1.2.1, (hentries e he).2.2.1⟩
  · change (wire (.map [_, _, _, _, _])).length ≤ 300
    have hbound : 9 + 5 * 50 ≤ 300 := by decide
    refine Nat.le_trans (length_wire_map_le (n := 50) hcount ?_) hbound
    intro e he
    have hkey := (hentries e he).1.2.2
    have hvalue := (hentries e he).2.2.2
    rw [entryWire, List.length_append]
    omega

/-! ## Requests -/

/-- The members of a request that carries the platform's key. -/
structure PinRequest where
  protocol : PinUvAuthProtocol
  subcommand : ℕ
  x : ByteArrayOf 32
  y : ByteArrayOf 32
  auth : Option Bytes := none
  newPinEnc : Option Bytes := none
  pinHashEnc : Option Bytes := none
  permissions : Option UInt8 := none
  rpId : Option String := none

namespace PinRequest

def key (r : PinRequest) : CoseKey := .p256 .ecdhEsHkdf256 r.x r.y

def fields (r : PinRequest) : List (ℕ × Value) :=
  [protocolEntry r.protocol, (2, uint r.subcommand), (3, r.key.toValue)] ++
    (r.auth.toList.map fun raw => (4, .bytes raw)) ++
    (r.newPinEnc.toList.map fun raw => (5, .bytes raw)) ++
    (r.pinHashEnc.toList.map fun raw => (6, .bytes raw)) ++
    (r.permissions.toList.map fun bits => (9, uint bits.toNat)) ++
    (r.rpId.toList.map fun id => (10, .text id))

/-- The encrypted members are short. -/
structure Short (n : ℕ) (r : PinRequest) : Prop where
  auth : ∀ raw, r.auth = some raw → raw.length ≤ 96
  newPinEnc : ∀ raw, r.newPinEnc = some raw → raw.length ≤ 96
  pinHashEnc : ∀ raw, r.pinHashEnc = some raw → raw.length ≤ 96
  rpId : ∀ id, r.rpId = some id → (utf8 id).length ≤ n

variable {r : PinRequest} {n : ℕ}

theorem keys_sublist (r : PinRequest) :
    (r.fields.map Prod.fst).Sublist [1, 2, 3, 4, 5, 6, 9, 10] := by
  obtain ⟨protocol, subcommand, x, y, auth, newPinEnc, pinHashEnc, permissions, rpId⟩ := r
  have hone {α : Type} (o : Option α) (k : ℕ) (f : α → Value) :
      ((o.toList.map fun a => (k, f a)).map Prod.fst).Sublist [k] := by
    cases o with
    | none => exact List.nil_sublist _
    | some => exact List.Sublist.refl _
  simp only [fields, List.map_append]
  have hhead : ([protocolEntry protocol, (2, uint subcommand),
      (3, key ⟨protocol, subcommand, x, y, auth, newPinEnc, pinHashEnc, permissions, rpId⟩
        |>.toValue)].map Prod.fst).Sublist [1, 2, 3] := List.Sublist.refl _
  exact ((((hhead.append (hone auth 4 Value.bytes)).append (hone newPinEnc 5 Value.bytes)).append
    (hone pinHashEnc 6 Value.bytes)).append
      (hone permissions 9 fun bits => uint bits.toNat)).append (hone rpId 10 Value.text)

theorem orderly (h : r.Short n) (hn : n < 2 ^ 63) : Orderly (300 + n) r.fields := by
  have hsub := r.keys_sublist
  refine ⟨?_, ?_, ?_, ?_⟩
  · exact List.Pairwise.sublist hsub (by decide)
  · intro f hf
    have hkey := hsub.subset (List.mem_map_of_mem (f := Prod.fst) hf)
    have hall : ∀ k ∈ [1, 2, 3, 4, 5, 6, 9, 10], k < 24 := by decide
    exact hall _ hkey
  · have hwiden {v : Value} {m : ℕ} (hm : m ≤ 300 + n)
        (hv : Good 63 v ∧ Ordered v ∧ (wire v).length ≤ m) :
        Good 63 v ∧ Ordered v ∧ (wire v).length ≤ 300 + n :=
      ⟨hv.1, hv.2.1, Nat.le_trans hv.2.2 hm⟩
    have hbig : 96 < 2 ^ 64 := by decide
    intro f hf
    simp only [fields, List.mem_append, List.mem_cons, List.not_mem_nil, or_false, List.mem_map,
      Option.mem_toList] at hf
    rcases hf with (((((rfl | rfl | rfl) | ⟨raw, hraw, rfl⟩) | ⟨raw, hraw, rfl⟩) |
      ⟨raw, hraw, rfl⟩) | ⟨bits, _, rfl⟩) | ⟨id, hid, rfl⟩
    · apply hwiden (m := 9) (by omega)
      cases r.protocol
      · exact uint_orderly 1
      · exact uint_orderly 2
    · exact hwiden (by omega) (uint_orderly r.subcommand)
    · exact hwiden (by omega) (key_orderly r.x r.y)
    · exact hwiden (by omega) (bytes_orderly (h.auth raw hraw) hbig)
    · exact hwiden (by omega) (bytes_orderly (h.newPinEnc raw hraw) hbig)
    · exact hwiden (by omega) (bytes_orderly (h.pinHashEnc raw hraw) hbig)
    · exact hwiden (by omega) (uint_orderly bits.toNat)
    · apply hwiden (m := 9 + n) (by omega)
      exact scalar_orderly (v := .text id) trivial trivial (h.rpId id hid) (by omega)
  · have hlen := hsub.length_le
    rw [List.length_map] at hlen
    exact hlen

/-- What the parser makes of the message of a request. -/
theorem decoded (h : r.Short n) (hn : n < 2 ^ 59) {message : Bytes}
    (hm : clientPinMessage r.fields = .ok message) :
    message.length ≤ 2500 + 8 * n ∧ ∃ body, message = commandClientPin :: body ∧
      CtapMessage.decoded body = .ok (fieldMap r.fields) := by
  have horderly := orderly h (Nat.lt_trans hn (by decide))
  obtain ⟨body, hbody, rfl⟩ := map_eq_ok.mp hm
  cases horderly.encode.symm.trans hbody
  have hlen := horderly.length
  refine ⟨?_, _, rfl, ?_⟩
  · rw [List.length_cons]
    omega
  · apply horderly.decoded
    simp only [usizeMax]
    omega

section members

theorem small (r : PinRequest) : ∀ f ∈ r.fields, f.1 < 24 := by
  intro f hf
  have hkey := r.keys_sublist.subset (List.mem_map_of_mem (f := Prod.fst) hf)
  have hall : ∀ k ∈ [1, 2, 3, 4, 5, 6, 9, 10], k < 24 := by decide
  exact hall _ hkey

/-- The members that a reader finds. -/
structure Carries (value : Value) (r : PinRequest) : Prop where
  protocol : value.mapGetInt 1 = some (.unsigned r.protocol.toU8.toUInt64)
  subcommand : value.mapGetInt 2 = some (uint r.subcommand)
  key : value.mapGetInt 3 = some r.key.toValue
  auth : (value.mapGetInt 4).bind Value.asBytes = r.auth
  newPinEnc : (value.mapGetInt 5).bind Value.asBytes = r.newPinEnc
  pinHashEnc : (value.mapGetInt 6).bind Value.asBytes = r.pinHashEnc
  permissions : value.mapGetInt 9 = r.permissions.map fun bits => uint bits.toNat
  rpId : (value.mapGetInt 10).bind Value.asText = r.rpId

theorem carries (r : PinRequest) : Carries (fieldMap r.fields) r := by
  have hget (k : ℕ) (hk : k < 24) := mapGetInt_fieldMap r.small hk
  obtain ⟨protocol, subcommand, x, y, auth, newPinEnc, pinHashEnc, permissions, rpId⟩ := r
  constructor
  · exact hget 1 (by decide)
  · exact hget 2 (by decide)
  · exact hget 3 (by decide)
  · refine (congrArg (Option.bind · Value.asBytes) (hget 4 (by decide))).trans ?_
    cases auth <;> cases newPinEnc <;> cases pinHashEnc <;> cases permissions <;> cases rpId <;> rfl
  · refine (congrArg (Option.bind · Value.asBytes) (hget 5 (by decide))).trans ?_
    cases auth <;> cases newPinEnc <;> cases pinHashEnc <;> cases permissions <;> cases rpId <;> rfl
  · refine (congrArg (Option.bind · Value.asBytes) (hget 6 (by decide))).trans ?_
    cases auth <;> cases newPinEnc <;> cases pinHashEnc <;> cases permissions <;> cases rpId <;> rfl
  · refine (hget 9 (by decide)).trans ?_
    cases auth <;> cases newPinEnc <;> cases pinHashEnc <;> cases permissions <;> cases rpId <;> rfl
  · refine (congrArg (Option.bind · Value.asText) (hget 10 (by decide))).trans ?_
    cases auth <;> cases newPinEnc <;> cases pinHashEnc <;> cases permissions <;> cases rpId <;> rfl

end members

end PinRequest

/-! ## Encrypted members -/

section encrypted

variable {aes : Bytes → Equiv.Perm (ByteArrayOf 16)} {protocol : PinUvAuthProtocol}
  {shared text ciphertext : Bytes} {iv : Option (ByteArrayOf 16)}

theorem length_cbc (aes : Bytes → Equiv.Perm (ByteArrayOf 16)) (key : Bytes) {iv : Bytes}
    (hiv : iv.length = 16) (htext : 16 ∣ text.length) :
    ((cbc aes).encrypt key iv text).length = text.length :=
  BlockChaining.length_chained (BlockChaining.length_encrypt xorBlocks (aes key)) hiv htext

theorem cbc_decrypts (key : Bytes) {iv : Bytes} (hiv : iv.length = 16) (htext : 16 ∣ text.length) :
    (cbc aes).decrypt key iv ((cbc aes).encrypt key iv text) = text :=
  BlockChaining.decrypts hiv htext

theorem blocks_eq_ok {f : Bytes → Bytes → Bytes → Bytes} {key iv out : Bytes} {refusal : Error} :
    blocks f key iv text refusal = .ok out ↔ text.length % 16 = 0 ∧ out = f key iv text := by
  simp only [blocks]
  by_cases h : text.length % 16 = 0
  · simp [h, eq_comm]
  · simp [h]

theorem keyOf_eq_ok {start stop : ℕ} {key : Bytes} {refusal : Error} :
    keyOf shared start stop refusal = .ok key ↔ slice shared start stop = some key := by
  simp only [keyOf]
  cases slice shared start stop <;> simp

/-- What was encrypted for a session is decrypted with its secret. -/
theorem decrypt_encrypt (hne : text ≠ [])
    (h : encrypt (cbc aes) protocol shared iv text = .ok ciphertext) :
    decrypt (cbc aes) protocol shared ciphertext = .ok text ∧
      ciphertext.length ≤ text.length + 16 := by
  have hpos := List.length_pos_iff.mpr hne
  cases protocol with
  | v1 =>
    obtain ⟨key, hkey, h⟩ := bind_eq_ok.mp h
    obtain ⟨hblocks, rfl⟩ := blocks_eq_ok.mp h
    have hdvd := Nat.dvd_of_mod_eq_zero hblocks
    have hlen := @length_cbc _ aes key zeroIv rfl hdvd
    have hnil : (cbc aes).encrypt key zeroIv text ≠ [] := by
      intro hnil
      rw [hnil, List.length_nil] at hlen
      omega
    refine ⟨?_, by omega⟩
    rw [decrypt, if_neg (by rw [hlen]; simp [hnil, hblocks])]
    refine bind_eq_ok.mpr ⟨key, keyOf_eq_ok.mpr (keyOf_eq_ok.mp hkey), ?_⟩
    apply blocks_eq_ok.mpr
    rw [hlen]
    exact ⟨hblocks, (cbc_decrypts key rfl hdvd).symm⟩
  | v2 =>
    obtain ⟨key, hkey, h⟩ := bind_eq_ok.mp h
    cases iv with
    | none => cases h
    | some iv =>
      obtain ⟨out, hout, rfl⟩ := map_eq_ok.mp h
      obtain ⟨hblocks, rfl⟩ := blocks_eq_ok.mp hout
      have hdvd := Nat.dvd_of_mod_eq_zero hblocks
      have hlen := length_cbc aes key iv.2 hdvd
      have htotal : (iv.1 ++ (cbc aes).encrypt key iv.1 text).length = text.length + 16 := by
        rw [List.length_append, iv.2, hlen, Nat.add_comm]
      have htake : (iv.1 ++ (cbc aes).encrypt key iv.1 text).take 16 = iv.1 :=
        List.take_left' iv.2
      have hdrop : (iv.1 ++ (cbc aes).encrypt key iv.1 text).drop 16 =
          (cbc aes).encrypt key iv.1 text := List.drop_left' iv.2
      refine ⟨?_, Nat.le_of_eq htotal⟩
      rw [decrypt, htotal, if_neg (by omega), htake, hdrop]
      refine bind_eq_ok.mpr ⟨key, keyOf_eq_ok.mpr (keyOf_eq_ok.mp hkey), ?_⟩
      apply blocks_eq_ok.mpr
      rw [hlen]
      exact ⟨hblocks, (cbc_decrypts key iv.2 hdvd).symm⟩

/-- A secret of its protocol's length encrypts whole blocks. -/
theorem encrypt_ok (hshared : shared.length = if protocol = .v1 then 32 else 64)
    (hiv : checkIv protocol iv = .ok ()) (htext : text.length % 16 = 0) :
    ∃ ciphertext, encrypt (cbc aes) protocol shared iv text = .ok ciphertext := by
  cases protocol with
  | v1 =>
    rw [if_pos rfl] at hshared
    refine ⟨_, bind_eq_ok.mpr ⟨shared, keyOf_eq_ok.mpr ?_, blocks_eq_ok.mpr ⟨htext, rfl⟩⟩⟩
    simp [slice, hshared]
  | v2 =>
    rw [if_neg (by decide)] at hshared
    cases iv with
    | none => simp [checkIv] at hiv
    | some iv =>
      refine ⟨_, bind_eq_ok.mpr ⟨shared.drop 32, keyOf_eq_ok.mpr ?_,
        map_eq_ok.mpr ⟨_, blocks_eq_ok.mpr ⟨htext, rfl⟩, rfl⟩⟩⟩
      simp [slice, hshared]

end encrypted

end CtapPinMessage
