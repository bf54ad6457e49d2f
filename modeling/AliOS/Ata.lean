import AliOS.Lib.ByteMem

/-!
# AliOS.Ata

The ATA driver (`kernel/ata.c`) at the level its callers see: a store of
512-byte sectors behind a 28-bit sector address.  `ataSetup` loads the address
into the task-file registers, which hold bits 0 to 27 only; a larger sector
number silently names another sector.

A transfer succeeds or fails.  Which one is decided outside the program, so a
disk carries the script of the outcomes still to come: an empty script means
that every transfer succeeds.  A failed read has delivered some of its sectors,
a failed write may leave anything in the sectors it was writing.
-/

namespace AliOS

open Lib

/-- Bytes per sector. -/
def sectorSize : Nat := 512

/-- What becomes of a transfer.  `moved` counts the sectors a failed read has
delivered; `left` is what a failed write leaves on the disk, read at the sectors
the write was addressed to. -/
inductive AtaOutcome where
  | ok
  | fail (moved : Nat) (left : Bytes)

/-- The slave drive: its contents and the fate of the transfers to come. -/
structure Disk where
  data : Bytes
  script : List AtaOutcome

/-- The task-file registers `ata_setup` writes. -/
structure TaskFile where
  drive : Nat
  count : Nat
  lbaLo : Nat
  lbaMid : Nat
  lbaHi : Nat

def ataSetup (drive lba count : Nat) : TaskFile where
  drive := 0xE0 ||| ((drive &&& 1) <<< 4) ||| ((lba >>> 24) &&& 0x0F)
  count := count
  lbaLo := lba &&& 0xFF
  lbaMid := (lba >>> 8) &&& 0xFF
  lbaHi := (lba >>> 16) &&& 0xFF

/-- The sector the drive finds in its registers. -/
def TaskFile.sector (t : TaskFile) : Nat :=
  t.lbaLo + 256 * t.lbaMid + 65536 * t.lbaHi + 16777216 * (t.drive % 16)

/-- The registers keep 28 bits of the sector number. -/
theorem sector_ataSetup (drive lba count : Nat) :
    (ataSetup drive lba count).sector = lba % 2 ^ 28 := by
  have hff : (0xFF : Nat) = 2 ^ 8 - 1 := rfl
  have hf : (0x0F : Nat) = 2 ^ 4 - 1 := rfl
  have hlow : (0xE0 ||| ((drive &&& 1) <<< 4)) % 2 ^ 4 = 0 := by
    rw [Nat.or_mod_two_pow, Nat.shiftLeft_eq, Nat.mul_mod_left]
    rfl
  have hdrive : (ataSetup drive lba count).drive % 16 = (lba >>> 24) % 16 := by
    show (0xE0 ||| ((drive &&& 1) <<< 4) ||| ((lba >>> 24) &&& 0x0F)) % 2 ^ 4 = _
    rw [Nat.or_mod_two_pow, hlow, Nat.zero_or, hf, Nat.and_two_pow_sub_one_eq_mod, Nat.mod_mod]
  unfold TaskFile.sector
  rw [hdrive]
  simp only [ataSetup, hff, Nat.and_two_pow_sub_one_eq_mod, Nat.shiftRight_eq_div_pow]
  omega

/-- First byte of a transfer to the slave drive. -/
def ataByte (lba count : Nat) : Nat := sectorSize * (ataSetup 1 lba count).sector

theorem ataByte_eq {lba : Nat} (count : Nat) (h : lba < 2 ^ 28) :
    ataByte lba count = sectorSize * lba := by
  rw [ataByte, sector_ataSetup, Nat.mod_eq_of_lt h]

/-- Read `count` sectors; `none` is the return value -1. -/
def ataRead (d : Disk) (lba count : Nat) : Option (List UInt8) × Disk :=
  if count = 0 then (some [], d)
  else match d.script with
    | [] => (some (slice d.data (ataByte lba count) (sectorSize * count)), d)
    | .ok :: rest =>
      (some (slice d.data (ataByte lba count) (sectorSize * count)), { d with script := rest })
    | .fail _ _ :: rest => (none, { d with script := rest })

/-- What `ata_read` has stored into its buffer when it returns. -/
def ataDelivered (d : Disk) (lba count : Nat) : List UInt8 :=
  match d.script with
  | .fail moved _ :: _ => slice d.data (ataByte lba count) (sectorSize * (moved % count))
  | _ => slice d.data (ataByte lba count) (sectorSize * count)

/-- Write `count` sectors from `buf`; `false` is the return value -1. -/
def ataWrite (d : Disk) (lba count : Nat) (buf : Bytes) : Bool × Disk :=
  if count = 0 then (true, d)
  else match d.script with
    | [] => (true, { d with data := blit d.data (ataByte lba count) (sectorSize * count) buf })
    | .ok :: rest =>
      (true, ⟨blit d.data (ataByte lba count) (sectorSize * count) buf, rest⟩)
    | .fail _ left :: rest =>
      (false, ⟨blit d.data (ataByte lba count) (sectorSize * count)
        fun k => left (ataByte lba count + k), rest⟩)

/-! ## what a write can do -/

/-- A write changes only its own sectors, and a successful one stores the
buffer there. -/
theorem ataWrite_spec (d : Disk) (lba count : Nat) (buf : Bytes) :
    (∀ a, a < ataByte lba count ∨ ataByte lba count + sectorSize * count ≤ a →
      (ataWrite d lba count buf).2.data a = d.data a) ∧
    ((ataWrite d lba count buf).1 → ∀ k < sectorSize * count,
      (ataWrite d lba count buf).2.data (ataByte lba count + k) = buf k) := by
  unfold ataWrite
  by_cases h0 : count = 0
  · simp [h0]
  · rw [if_neg h0]
    cases d.script with
    | nil => exact ⟨fun a ha => blit_of_notMem ha, fun _ k hk => blit_add hk⟩
    | cons x rest =>
      cases x with
      | ok => exact ⟨fun a ha => blit_of_notMem ha, fun _ k hk => blit_add hk⟩
      | fail _ left =>
        dsimp only
        exact ⟨fun a ha => blit_of_notMem ha, fun h => absurd h (by simp)⟩

end AliOS
