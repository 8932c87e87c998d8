import LibCanokey.ProtocolConversation

/-! # Memory of a C caller

A pointer that may be null is an option, and a function that writes through one returns what
is behind it afterwards. A byte range of the caller is a pointer with a length, and the memory
behind it holds at least that many bytes. -/
namespace BindingMemory

open BigEndian ProtocolError ProtocolConversation

inductive Code where
  | ok
  | arg
  | state
  | small
  | type
  | protocol
  | panic
  deriving DecidableEq, Repr

def Code.value : Code → UInt32
  | .ok => 0
  | .arg => 1
  | .state => 2
  | .small => 3
  | .type => 4
  | .protocol => 5
  | .panic => 6

def isizeMax : ℕ := 2 ^ 63 - 1

/-- What a caller passes as a pointer and a length. -/
structure Span where
  data : Option Bytes := none
  len : ℕ := 0
  deriving DecidableEq, Repr

def bytes (s : Span) : Except Code Bytes :=
  if s.len > isizeMax ∨ (s.len ≠ 0 ∧ s.data = none) then .error .arg
  else if s.len = 0 then .ok []
  else .ok ((s.data.getD []).take s.len)

/-- The memory behind `buffer` and `len` after the call. -/
structure Copied where
  code : Code
  buffer : Option Bytes
  len : Option ℕ
  deriving DecidableEq, Repr

def copy (data : Bytes) (buffer : Option Bytes) (len : Option ℕ) : Copied :=
  match len with
  | none => ⟨.arg, buffer, none⟩
  | some capacity =>
    match buffer with
    | none => ⟨.ok, none, some data.length⟩
    | some memory =>
      if capacity < data.length then ⟨.small, some memory, some data.length⟩
      else ⟨.ok, some (data ++ memory.drop data.length), some data.length⟩

/-- A whole value passed as a range. -/
def Span.all (data : Bytes) : Span := ⟨some data, data.length⟩

theorem bytes_all {data : Bytes} (h : data.length ≤ isizeMax) : bytes (.all data) = .ok data := by
  have hpointer : ¬ ((Span.all data).len > isizeMax ∨
      ((Span.all data).len ≠ 0 ∧ (Span.all data).data = none)) := by
    rintro (hbig | ⟨_, hnull⟩)
    · exact absurd h (Nat.not_le.mpr hbig)
    · cases hnull
  rw [bytes, if_neg hpointer]
  by_cases hempty : (Span.all data).len = 0
  · rw [if_pos hempty, List.eq_nil_of_length_eq_zero hempty]
  · rw [if_neg hempty]
    exact congrArg Except.ok (List.take_length)

theorem bytes_error {s : Span} {code : Code} (h : bytes s = .error code) : code = .arg := by
  rw [bytes] at h
  split_ifs at h
  cases h
  rfl

theorem bytes_null : bytes {} = .ok [] := by decide

section copies

variable {data memory : Bytes} {capacity : ℕ}

@[simp] theorem copy_query (data : Bytes) (n : ℕ) :
    copy data none (some n) = ⟨.ok, none, some data.length⟩ := rfl

/-- Bytes after the copied value are left alone. -/
theorem copy_fits (h : data.length ≤ capacity) :
    copy data (some memory) (some capacity) =
      ⟨.ok, some (data ++ memory.drop data.length), some data.length⟩ := by
  rw [copy, if_neg (Nat.not_lt.mpr h)]

theorem copy_small (h : capacity < data.length) :
    copy data (some memory) (some capacity) = ⟨.small, some memory, some data.length⟩ := by
  rw [copy, if_pos h]

/-- No byte outside the announced capacity is written. -/
theorem copy_bounded (h : capacity ≤ memory.length) :
    ∃ after, (copy data (some memory) (some capacity)).buffer = some after ∧
      after.length = memory.length ∧ after.drop capacity = memory.drop capacity := by
  by_cases hfits : data.length ≤ capacity
  · rw [copy_fits hfits]
    refine ⟨_, rfl, ?_, ?_⟩
    · rw [List.length_append, List.length_drop]
      omega
    · rw [List.drop_append, List.drop_eq_nil_of_le hfits, List.nil_append, List.drop_drop]
      congr 1
      omega
  · rw [copy_small (Nat.not_le.mp hfits)]
    exact ⟨memory, rfl, rfl, rfl⟩

/-- The length that a query returns is enough for the second call. -/
theorem copy_queried (data : Bytes) (n : ℕ) (fill : UInt8) :
    copy data (some (List.replicate data.length fill)) (copy data none (some n)).len =
      ⟨.ok, some data, some data.length⟩ := by
  rw [copy_query, copy_fits (Nat.le_refl _), List.drop_eq_nil_of_le, List.append_nil]
  rw [List.length_replicate]

end copies

end BindingMemory
