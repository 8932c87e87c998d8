import Mathlib.Logic.Function.Basic
import LibCanokey.PivWrite

/-! # The objects of a card

What PUT DATA leaves in a store of objects, from the one command that every object write
sends. -/
namespace PivObjectStore

open BigEndian CheckedCursor ListTraversal ProtocolError ProtocolApdu ProtocolConversation
open ProtocolOperation ProtocolTlv ProtocolTlvRoundTrip ProtocolTlvFields CompatProfile PivCommand
open PivManagement PivWrite

/-- The container stored under each identifier; an absent object is empty. -/
abbrev ObjectStore := Bytes → Bytes

/-- The identifier and the container of a PUT DATA field. -/
def putField : Bytes → Option (Bytes × Bytes)
  | 0x5c :: n :: rest =>
    if n.toNat ≤ rest.length then some (rest.take n.toNat, rest.drop n.toNat) else none
  | _ => none

/-- What a PUT DATA with this data field leaves in the store. -/
def ObjectStore.put (store : ObjectStore) (data : Bytes) : ObjectStore :=
  match putField data with
  | some (id, container) => Function.update store id container
  | none => store

/-- The data field of the PUT DATA of an object. -/
def putData (id : ObjectId) (data : Bytes) : Bytes :=
  fieldBytes [0x5c] id.asBytes ++ fieldBytes [0x53] data

def objectTag : Tag := shortTag 0x53 (by decide)

theorem objectTag_toBytes : objectTag.toBytes = [0x53] := shortTag_toBytes _

theorem selector_eq (id : ObjectId) :
    fieldBytes [0x5c] id.asBytes = 0x5c :: UInt8.ofNat id.asBytes.length :: id.asBytes := by
  have hlen := (length_asBytes id).2
  exact @fieldBytes_short (0x5c, id.asBytes) (by dsimp only; omega)

theorem putField_putData (id : ObjectId) (data : Bytes) :
    putField (putData id data) = some (id.asBytes, fieldBytes [0x53] data) := by
  have hlen := (length_asBytes id).2
  have hn : (UInt8.ofNat id.asBytes.length).toNat = id.asBytes.length :=
    toNat_ofNat_of_lt (by omega)
  rw [putData, selector_eq]
  simp only [List.cons_append, putField, hn]
  rw [if_pos (by simp), List.take_left, List.drop_left]

/-- A written object is stored whole, and no other object changes. -/
theorem put_putData (store : ObjectStore) (id : ObjectId) (data : Bytes) :
    store.put (putData id data) = Function.update store id.asBytes (fieldBytes [0x53] data) := by
  rw [ObjectStore.put, putField_putData]

/-- The command of an object write: what it carries and what was checked for it. -/
theorem putCommand_eq_ok {profile : DeviceProfile} {id : ObjectId} {data : Bytes}
    {options : OperationOptions} {command : LogicalCommand}
    (h : putCommand profile id data options = .ok command) :
    command = { cmd 0xdb 0x3f 0xff (putData id data) .absent with
      allowChaining := (profile.capability .objectWriteChaining).support == .supported } ∧
      (profile.capability .objectWrites).require = .ok () ∧ options.Valid ∧
      data.length < 2 ^ 32 ∧ (putData id data).length ≤ min options.limits.maxInputBytes usizeMax ∧
      (command.allowChaining = true →
        id.asBytes.length + 2 ≤ options.exchange.maxCommandBytes - 6) := by
  obtain ⟨_, _, h⟩ := bind_eq_ok.mp h
  obtain ⟨_, hwrites, h⟩ := bind_eq_ok.mp h
  obtain ⟨_, hvalid, h⟩ := bind_eq_ok.mp h
  obtain ⟨writer, hpush, h⟩ := bind_eq_ok.mp h
  rw [pushTags, List.foldlM_cons] at hpush
  obtain ⟨first, hselector, hpush⟩ := bind_eq_ok.mp hpush
  rw [List.foldlM_cons] at hpush
  obtain ⟨second, hvalue, hpush⟩ := bind_eq_ok.mp hpush
  cases hpush
  obtain ⟨_, _, hb1, hl1⟩ := (pushTag_eq_ok (shortTag_toBytes (b := 0x5c) (by decide))).mp hselector
  obtain ⟨hword, hfit, hb2, _⟩ := (pushTag_eq_ok objectTag_toBytes).mp hvalue
  have hbytes : writer.bytes = putData id data := by
    rw [hb2, hb1]
    rfl
  have hlen : (putData id data).length ≤ min options.limits.maxInputBytes usizeMax := by
    rw [hb1, hl1, List.length_append] at hfit
    simpa [putData, TlvWriter.new] using hfit
  rw [checkSelector, hbytes] at h
  split_ifs at h with hchain
  cases h
  refine ⟨rfl, hwrites, (validate_eq_ok.mp hvalid).1, hword, hlen, ?_⟩
  intro hallow
  by_contra hbig
  exact hchain ⟨hallow, by omega⟩

end PivObjectStore
