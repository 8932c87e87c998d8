import Mathlib.Data.List.Basic

/-! # Files written at offsets

A file is a total function from positions to cells. A write replaces the window its data
covers and nothing else; a sequence of writes is applied from the left. -/
namespace ByteFile

variable {β : Type*}

abbrev File (β : Type*) := ℕ → β

structure Write (β : Type*) where
  offset : ℕ
  data : List β
  deriving DecidableEq, Repr

def write (f : File β) (w : Write β) : File β := fun i =>
  if w.offset ≤ i then w.data.getD (i - w.offset) (f i) else f i

def writeAll (f : File β) (ws : List (Write β)) : File β := ws.foldl write f

def read (f : File β) (offset length : ℕ) : List β :=
  (List.range length).map fun i => f (offset + i)

/-- The file has `data` from `offset` on. -/
def Holds (f : File β) (offset : ℕ) (data : List β) : Prop := read f offset data.length = data

@[simp] theorem length_read (f : File β) (offset length : ℕ) :
    (read f offset length).length = length := by
  simp [read]

@[simp] theorem read_zero (f : File β) (offset : ℕ) : read f offset 0 = [] := rfl

theorem read_add (f : File β) (offset m n : ℕ) :
    read f offset (m + n) = read f offset m ++ read f (offset + m) n := by
  simp only [read, List.range_add, List.map_append, List.map_map]
  congr 1
  apply List.map_congr_left
  intro i _
  simp [Nat.add_assoc]

theorem holds_iff {f : File β} {offset : ℕ} {data : List β} :
    Holds f offset data ↔ ∀ i b, data[i]? = some b → f (offset + i) = b := by
  constructor
  · intro h i b hb
    obtain ⟨hi, hb⟩ := List.getElem?_eq_some_iff.mp hb
    have := List.getElem_of_eq h (by simpa using hi)
    rw [← hb, ← this]
    simp [read]
  · intro h
    apply List.ext_getElem (by simp)
    intro i hi hi'
    simp only [read, List.getElem_map, List.getElem_range]
    exact h i _ (List.getElem?_eq_getElem hi')

theorem holds_append {f : File β} {offset : ℕ} {a b : List β} :
    Holds f offset (a ++ b) ↔ Holds f offset a ∧ Holds f (offset + a.length) b := by
  simp only [Holds, List.length_append, read_add]
  constructor
  · intro h
    exact List.append_inj h (by simp)
  · rintro ⟨ha, hb⟩
    rw [ha, hb]

theorem Holds.read_eq {f : File β} {offset : ℕ} {data : List β} (h : Holds f offset data) :
    read f offset data.length = data := h

theorem holds_write (f : File β) (w : Write β) : Holds (write f w) w.offset w.data := by
  apply holds_iff.mpr
  intro i b hb
  simp [write, List.getD_eq_getElem?_getD, hb]

theorem write_outside {f : File β} {w : Write β} {i : ℕ}
    (h : i < w.offset ∨ w.offset + w.data.length ≤ i) : write f w i = f i := by
  simp only [write]
  split_ifs with hi
  · have hnone : w.data[i - w.offset]? = none := List.getElem?_eq_none (by omega)
    rw [List.getD_eq_getElem?_getD, hnone, Option.getD_none]
  · rfl

/-- A write leaves every window it does not meet. -/
theorem Holds.write {f : File β} {offset : ℕ} {data : List β} {w : Write β}
    (h : Holds f offset data)
    (hw : offset + data.length ≤ w.offset ∨ w.offset + w.data.length ≤ offset) :
    Holds (write f w) offset data := by
  apply holds_iff.mpr
  intro i b hb
  have hi := (List.getElem?_eq_some_iff.mp hb).1
  rw [write_outside (by omega)]
  exact holds_iff.mp h i b hb

@[simp] theorem writeAll_nil (f : File β) : writeAll f [] = f := rfl

@[simp] theorem writeAll_concat (f : File β) (ws : List (Write β)) (w : Write β) :
    writeAll f (ws ++ [w]) = write (writeAll f ws) w := by
  simp [writeAll]

/-- Ranges, as offset and length, that tile the window from `start` to `stop`. -/
def Tiles : ℕ → List (ℕ × ℕ) → ℕ → Prop
  | start, [], stop => start = stop
  | start, (offset, length) :: ranges, stop =>
    offset = start ∧ 0 < length ∧ Tiles (start + length) ranges stop

theorem tiles_concat {start stop length : ℕ} {ranges : List (ℕ × ℕ)}
    (h : Tiles start ranges stop) (hl : 0 < length) :
    Tiles start (ranges ++ [(stop, length)]) (stop + length) := by
  induction ranges generalizing start with
  | nil =>
    have h : start = stop := h
    rw [h]
    exact ⟨rfl, hl, rfl⟩
  | cons range ranges ih =>
    obtain ⟨offset, len⟩ := range
    obtain ⟨ho, hlen, h⟩ := h
    exact ⟨ho, hlen, ih h⟩

end ByteFile
