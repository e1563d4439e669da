import Mathlib.Algebra.GroupWithZero.Nat
import Mathlib.Data.List.Basic

/-!
# Structs in a byte file

What a program that keeps C structs in a file needs to know about bytes. A
number is stored with the least significant byte first. A struct is a
sequence of fields, each with a width and a value; padding is a field like
any other, with a value nobody asks for. `readFields` cuts a byte list at
the widths of a layout and gives the values back.

`File` is a stdio stream: the bytes, the position and the end-of-file flag,
which a read sets when it comes up short and only a seek clears.
-/

/-- The `w` low bytes of `n`, least significant first. -/
def leBytes : Nat → Nat → List UInt8
  | 0, _ => []
  | w + 1, n => UInt8.ofNat n :: leBytes w (n / 256)

/-- The number a byte list stands for, least significant byte first. -/
def ofLeBytes : List UInt8 → Nat
  | [] => 0
  | b :: bs => b.toNat + 256 * ofLeBytes bs

@[simp] theorem leBytes_length (w n : Nat) : (leBytes w n).length = w := by
  induction w generalizing n with
  | zero => rfl
  | succ w ih => simp [leBytes, ih]

theorem ofLeBytes_leBytes (w n : Nat) : ofLeBytes (leBytes w n) = n % 256 ^ w := by
  induction w generalizing n with
  | zero => simp [leBytes, ofLeBytes, Nat.mod_one]
  | succ w ih =>
      have hb : (UInt8.ofNat n).toNat = n % 256 := by simp
      rw [leBytes, ofLeBytes, ih, hb, Nat.pow_succ, Nat.mul_comm (256 ^ w) 256, Nat.mod_mul]

/-- The bytes of a struct with the given field widths and values. -/
def writeFields (fs : List (Nat × Nat)) : List UInt8 :=
  fs.flatMap fun f => leBytes f.1 f.2

/-- The field values of a struct with the given widths. -/
def readFields : List Nat → List UInt8 → List Nat
  | [], _ => []
  | w :: ws, bs => ofLeBytes (bs.take w) :: readFields ws (bs.drop w)

@[simp] theorem writeFields_length (fs : List (Nat × Nat)) :
    (writeFields fs).length = (fs.map Prod.fst).sum := by
  simp [writeFields, List.length_flatMap]

theorem readFields_writeFields (fs : List (Nat × Nat)) (rest : List UInt8) :
    readFields (fs.map Prod.fst) (writeFields fs ++ rest) =
      fs.map fun f => f.2 % 256 ^ f.1 := by
  induction fs with
  | nil => rfl
  | cons f fs ih =>
      have htake : (leBytes f.1 f.2 ++ (writeFields fs ++ rest)).take f.1 = leBytes f.1 f.2 := by
        rw [List.take_append_of_le_length (by simp), List.take_of_length_le (by simp)]
      have hdrop : (leBytes f.1 f.2 ++ (writeFields fs ++ rest)).drop f.1 =
        writeFields fs ++ rest := by
        rw [List.drop_append_of_le_length (by simp), List.drop_of_length_le (by simp),
          List.nil_append]
      simp only [writeFields, List.flatMap_cons, List.append_assoc, List.map_cons, readFields]
      rw [← writeFields, htake, hdrop, ih, ofLeBytes_leBytes]

/-- A stdio stream. -/
structure File where
  bytes : List UInt8
  pos : Nat
  eof : Bool
  deriving DecidableEq, Repr

namespace File

/-- `fseek(fp, pos, SEEK_SET)`. -/
def seekSet (f : File) (pos : Nat) : File := { f with pos := pos, eof := false }

/-- `fseek(fp, 0, SEEK_END)`. -/
def seekEnd (f : File) : File := { f with pos := f.bytes.length, eof := false }

/-- `fread` of `n` bytes. A stream at its end stays there until the next
seek. -/
def fread (f : File) (n : Nat) : List UInt8 × File :=
  if f.eof then ([], f)
  else
    let bs := (f.bytes.drop f.pos).take n
    (bs, { f with pos := f.pos + bs.length, eof := bs.length < n })

/-- `fwrite` at the current position; a gap behind the end is filled with
zeros. -/
def fwrite (f : File) (bs : List UInt8) : File :=
  { f with
    bytes := f.bytes.take f.pos ++ List.replicate (f.pos - f.bytes.length) 0 ++ bs ++
      f.bytes.drop (f.pos + bs.length)
    pos := f.pos + bs.length }

/-- Writing at the end appends. -/
theorem fwrite_end {f : File} (h : f.pos = f.bytes.length) (bs : List UInt8) :
    f.fwrite bs = { f with bytes := f.bytes ++ bs, pos := (f.bytes ++ bs).length } := by
  simp only [fwrite, h, List.take_length, Nat.sub_self, List.replicate_zero, List.append_nil,
    List.length_append]
  rw [List.drop_of_length_le (by omega), List.append_nil]

/-- Writing at the front replaces as many bytes as are written. -/
theorem fwrite_front {f : File} (h : f.pos = 0) {old new rest : List UInt8}
    (hb : f.bytes = old ++ rest) (hl : new.length = old.length) :
    (f.fwrite new).bytes = new ++ rest := by
  simp only [fwrite, h, List.take_zero, Nat.zero_sub, List.replicate_zero, List.nil_append, hb,
    Nat.zero_add, hl, List.drop_left]

/-- A read that finds all its bytes. -/
theorem fread_full {f : File} {n : Nat} {bs rest : List UInt8} (heof : f.eof = false)
    (hd : f.bytes.drop f.pos = bs ++ rest) (hn : bs.length = n) :
    f.fread n = (bs, { f with pos := f.pos + n }) := by
  have hbs : (f.bytes.drop f.pos).take n = bs := by rw [hd, ← hn, List.take_left]
  rw [fread, if_neg (by simp [heof])]
  simp only [hbs, hn, Nat.lt_irrefl, decide_false]
  rw [← heof]

/-- A read that comes up short gets what there is and ends the file. -/
theorem fread_short {f : File} {n : Nat} (heof : f.eof = false)
    (hn : (f.bytes.drop f.pos).length < n) :
    (f.fread n).1 = f.bytes.drop f.pos ∧ (f.fread n).2.eof = true := by
  have hbs : (f.bytes.drop f.pos).take n = f.bytes.drop f.pos :=
    List.take_of_length_le (Nat.le_of_lt hn)
  rw [fread, if_neg (by simp [heof])]
  simp only [hbs, hn, decide_true, and_self]

theorem fread_eof {f : File} (heof : f.eof = true) (n : Nat) : f.fread n = ([], f) := by
  rw [fread, if_pos heof]

end File
