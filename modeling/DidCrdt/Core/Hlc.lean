import DidCrdt.Library.OrderedMaps

/-!
# Timestamps

Machine words are `Fin` types, so that they carry their linear order. An `HlcTimestamp` is ordered
lexicographically by wall time, logical counter and node identifier, as the derived order of the
source is. Two timestamps are equal when they compare equal, so a timestamp names at most one delta
once the timestamps of the deltas are distinct.
-/

set_option autoImplicit false
set_option relaxedAutoImplicit false

namespace DidCrdt

/-- Unsigned 32-bit words. -/
abbrev U32 : Type := Fin (2 ^ 32)

/-- Unsigned 64-bit words. -/
abbrev U64 : Type := Fin (2 ^ 64)

/-- A BLAKE3-256 digest. -/
abbrev Blake3Hash : Type := Fin (2 ^ 256)

/-! The facts that literals and map keys rest on have names, so that all modules refer to the same ones. -/

instance neZeroU32 : NeZero (2 ^ 32 : ℕ) := ⟨by decide⟩

instance neZeroU64 : NeZero (2 ^ 64 : ℕ) := ⟨by decide⟩

instance neZeroBlake3Hash : NeZero (2 ^ 256 : ℕ) := ⟨by decide⟩

instance transOrdU64 : Std.TransOrd U64 := inferInstance

instance transOrdBlake3Hash : Std.TransOrd Blake3Hash := inferInstance

/-- A hybrid logical clock timestamp. -/
structure HlcTimestamp where
  wallMs : U64
  logical : U32
  nodeId : U64
deriving DecidableEq, Repr

namespace HlcTimestamp

/-- The all-zero timestamp, which the genesis delta carries. -/
protected def default : HlcTimestamp := ⟨0, 0, 0⟩

instance : Inhabited HlcTimestamp := ⟨HlcTimestamp.default⟩

/-- The components in the order in which they are compared. -/
def key (t : HlcTimestamp) : U64 ×ₗ U32 ×ₗ U64 := toLex (t.wallMs, toLex (t.logical, t.nodeId))

theorem key_injective : Function.Injective key := by
  rintro ⟨w, l, n⟩ ⟨w', l', n'⟩ h
  simp only [key, toLex_inj, Prod.mk.injEq] at h
  obtain ⟨rfl, rfl, rfl⟩ := h
  rfl

instance : LinearOrder HlcTimestamp := LinearOrder.lift' key key_injective

instance transOrd : Std.TransOrd HlcTimestamp := inferInstance

theorem default_le (t : HlcTimestamp) : HlcTimestamp.default ≤ t := by
  change key HlcTimestamp.default ≤ key t
  rw [key, key, Prod.Lex.toLex_le_toLex]
  rcases eq_or_lt_of_le (Fin.zero_le t.wallMs) with hwall | hwall
  · refine Or.inr ⟨hwall, ?_⟩
    rw [Prod.Lex.toLex_le_toLex]
    rcases eq_or_lt_of_le (Fin.zero_le t.logical) with hlogical | hlogical
    · exact Or.inr ⟨hlogical, Fin.zero_le _⟩
    · exact Or.inl hlogical
  · exact Or.inl hwall

end HlcTimestamp

end DidCrdt
