/-
# Stored blocks

The DEFLATE format (RFC 1951) and the two containers around it, zlib (RFC 1950) and gzip
(RFC 1952), for data in stored blocks: a byte with the kind of the block, its length, the
complement of that, and the data.  Blocks of other kinds are refused.

Data of less than 64 KiB fits a stored block and can be read back from it (`blocks_store`), and
from the two containers, which end with a checksum (`unzlib_zlib`, `gunzip_gzip`).
-/

import Mathlib.Data.List.Basic

namespace Noxy
namespace Lib
namespace Deflate

/-- A number as `k` bytes, the lowest first. -/
def le : ℕ → ℕ → List UInt8
  | 0, _ => []
  | k + 1, n => UInt8.ofNat n :: le k (n / 256)

/-! ### Blocks -/

/-- The blocks of a stream: their data, and what comes after the last one.  There are no more
blocks than bytes. -/
def blocks : ℕ → List UInt8 → Option (List UInt8 × List UInt8)
  | turns + 1, kind :: l₀ :: l₁ :: n₀ :: n₁ :: rest =>
      let length := l₀.toNat + 256 * l₁.toNat
      -- the lowest bit is set in the last block, and the next two are zero in a stored one
      if kind.toNat / 2 % 4 = 0 ∧ [n₀, n₁] = le 2 (65535 - length) ∧ length ≤ rest.length then
        if kind.toNat % 2 = 1 then some (rest.take length, rest.drop length)
        else (blocks turns (rest.drop length)).map fun r => (rest.take length ++ r.1, r.2)
      else none
  | _, _ => none

/-- A raw stream. -/
def inflate (bytes : List UInt8) : Option (List UInt8) :=
  match blocks bytes.length bytes with
  | some (data, []) => some data
  | _ => none

/-- One stored block, the last one. -/
def store (data : List UInt8) : List UInt8 :=
  UInt8.ofNat 1 :: le 2 data.length ++ le 2 (65535 - data.length) ++ data

/-! ### Checksums -/

/-- One bit of a CRC. -/
def crcStep (c : ℕ) : ℕ := if c % 2 = 1 then (c / 2) ^^^ 0xedb88320 else c / 2

def crc32 (data : List UInt8) : ℕ :=
  data.foldl (fun c b => Nat.repeat crcStep 8 (c ^^^ b.toNat)) 0xffffffff ^^^ 0xffffffff

def adler32 (data : List UInt8) : ℕ :=
  let sums := data.foldl (fun s b =>
    ((s.1 + b.toNat) % 65521, (s.2 + (s.1 + b.toNat) % 65521) % 65521)) (1, 0)
  sums.2 * 65536 + sums.1

/-! ### Containers -/

/-- The zlib format: a header, a raw stream, and the Adler-32 sum of the data, highest byte
first. -/
def unzlib : List UInt8 → Option (List UInt8)
  | method :: flags :: stream =>
      if method.toNat % 16 = 8 ∧ (method.toNat * 256 + flags.toNat) % 31 = 0 ∧
          flags.toNat / 32 % 2 = 0 then
        match blocks stream.length stream with
        | some (data, sum) => if sum = (le 4 (adler32 data)).reverse then some data else none
        | none => none
      else none
  | _ => none

/-- The header of a gzip stream without optional fields, but for the time and the system. -/
def magic : List UInt8 := [31, 139, 8, 0].map UInt8.ofNat

/-- The gzip format, without optional fields: a header of ten bytes, a raw stream, and the CRC
and the length of the data. -/
def gunzip (bytes : List UInt8) : Option (List UInt8) :=
  if bytes.take 4 = magic ∧ 10 ≤ bytes.length then
    match blocks (bytes.drop 10).length (bytes.drop 10) with
    | some (data, sum) =>
        if sum = le 4 (crc32 data) ++ le 4 data.length then some data else none
    | none => none
  else none

/-- Data in the zlib format. -/
def zlib (data : List UInt8) : List UInt8 :=
  UInt8.ofNat 0x78 :: UInt8.ofNat 0x01 :: (store data ++ (le 4 (adler32 data)).reverse)

/-- Data in the gzip format. -/
def gzip (data : List UInt8) : List UInt8 :=
  magic ++ ([0, 0, 0, 0, 0, 255].map UInt8.ofNat ++
    (store data ++ (le 4 (crc32 data) ++ le 4 data.length)))

/-! ### Reading back -/

variable {data : List UInt8}

theorem le_two (n : ℕ) : le 2 n = [UInt8.ofNat n, UInt8.ofNat (n / 256)] := rfl

theorem toNat_le_two {n : ℕ} (h : n < 65536) :
    (UInt8.ofNat n).toNat + 256 * (UInt8.ofNat (n / 256)).toNat = n := by
  rw [UInt8.toNat_ofNat', UInt8.toNat_ofNat']
  omega

/-- **A stored block is read back.** -/
theorem blocks_store (h : data.length < 65536) (turns : ℕ) (rest : List UInt8) :
    blocks (turns + 1) (store data ++ rest) = some (data, rest) := by
  have hcons : store data ++ rest = UInt8.ofNat 1 :: UInt8.ofNat data.length ::
      UInt8.ofNat (data.length / 256) :: UInt8.ofNat (65535 - data.length) ::
      UInt8.ofNat ((65535 - data.length) / 256) :: (data ++ rest) := by
    simp [store, le_two]
  have hlast : (UInt8.ofNat 1).toNat % 2 = 1 := rfl
  rw [hcons, blocks, toNat_le_two h, if_pos ⟨rfl, rfl, by simp⟩, if_pos hlast, List.take_left,
    List.drop_left]

theorem length_store (data rest : List UInt8) :
    ∃ turns, (store data ++ rest).length = turns + 1 :=
  ⟨_, List.length_cons⟩

theorem length_le (k n : ℕ) : (le k n).length = k := by
  induction k generalizing n with
  | zero => rfl
  | succ k ih => rw [le, List.length_cons, ih]

theorem length_gzip (data : List UInt8) : (gzip data).length = data.length + 23 := by
  simp [gzip, magic, store, length_le]
  omega

theorem unzlib_zlib (h : data.length < 65536) : unzlib (zlib data) = some data := by
  obtain ⟨turns, hturns⟩ := length_store data (le 4 (adler32 data)).reverse
  rw [zlib, unzlib, if_pos ⟨rfl, rfl, rfl⟩, hturns, blocks_store h]
  exact if_pos rfl

theorem gunzip_gzip (h : data.length < 65536) : gunzip (gzip data) = some data := by
  obtain ⟨turns, hturns⟩ := length_store data (le 4 (crc32 data) ++ le 4 data.length)
  have hdrop : (gzip data).drop 10 = store data ++ (le 4 (crc32 data) ++ le 4 data.length) := rfl
  have hlength : 10 ≤ (gzip data).length := by simp [gzip, magic]
  rw [gunzip, if_pos ⟨rfl, hlength⟩, hdrop, hturns, blocks_store h]
  exact if_pos rfl

end Deflate
end Lib
end Noxy
