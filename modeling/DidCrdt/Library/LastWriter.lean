import Mathlib

/-!
# Last-writer-wins registers

A register holds a value and the marker that witnessed it; a write replaces both when its marker is
strictly greater. `Latest initial writes r` says what a register is after some writes: `r` is the
initial register, or one of the writes with a marker above the initial one, and no write has a
greater marker. A write and a merge of two registers preserve it (`Latest.update`, `Latest.merge`),
and when a marker determines the value written it determines the register (`Latest.unique`), so the
order in which the writes arrived does not matter. `Latest.greatest` reads the register back.

Registers with one value and different markers are told apart by one more write
(`LWWReg.eq_of_val_update_eq`).
-/

set_option autoImplicit false
set_option relaxedAutoImplicit false

namespace LastWriter

variable {V M : Type*}

/-- A value and the marker that witnessed it. -/
structure LWWReg (V M : Type*) where
  val : V
  marker : M
deriving DecidableEq

variable [LinearOrder M]

/-- Overwrites when the new marker is strictly greater. -/
def LWWReg.update (r : LWWReg V M) (val : V) (marker : M) : LWWReg V M :=
  if r.marker < marker then ⟨val, marker⟩ else r

/-- The register is the initial one or a write above it, and no write has a greater marker. -/
structure Latest (initial : LWWReg V M) (writes : V → M → Prop) (r : LWWReg V M) : Prop where
  source : r = initial ∨ (writes r.val r.marker ∧ initial.marker < r.marker)
  upper : ∀ v m, writes v m → m ≤ r.marker

theorem Latest.nothing {initial : LWWReg V M} {writes : V → M → Prop}
    (h : ∀ v m, ¬ writes v m) : Latest initial writes initial :=
  ⟨Or.inl rfl, fun v m hw ↦ absurd hw (h v m)⟩

theorem Latest.initial_le {initial r : LWWReg V M} {writes : V → M → Prop}
    (h : Latest initial writes r) : initial.marker ≤ r.marker := by
  rcases h.source with rfl | ⟨_, hlt⟩
  · exact le_rfl
  · exact hlt.le

theorem Latest.congr {initial r : LWWReg V M} {writes writes' : V → M → Prop}
    (h : Latest initial writes r) (hiff : ∀ v m, writes' v m ↔ writes v m) :
    Latest initial writes' r :=
  ⟨h.source.imp_right fun ⟨hw, hlt⟩ ↦ ⟨(hiff _ _).mpr hw, hlt⟩,
    fun v m hw ↦ h.upper v m ((hiff v m).mp hw)⟩

/-- Absorbing a register whose source is known. Both a write and a merge are of this kind. -/
theorem Latest.absorb {initial r s : LWWReg V M} {writes writes' writes'' : V → M → Prop}
    (hr : Latest initial writes r)
    (hs : s.marker ≤ initial.marker ∨ writes' s.val s.marker)
    (hupper : ∀ v m, writes' v m → m ≤ s.marker)
    (hunion : ∀ v m, writes'' v m ↔ writes v m ∨ writes' v m) :
    Latest initial writes'' (r.update s.val s.marker) := by
  unfold LWWReg.update
  split_ifs with hlt
  · have habove : initial.marker < s.marker := hr.initial_le.trans_lt hlt
    have hwrite : writes' s.val s.marker := hs.resolve_left (not_le.mpr habove)
    refine ⟨Or.inr ⟨(hunion _ _).mpr (Or.inr hwrite), habove⟩, fun v m hw ↦ ?_⟩
    rcases (hunion v m).mp hw with hw | hw
    · exact (hr.upper v m hw).trans hlt.le
    · exact hupper v m hw
  · refine ⟨hr.source.imp_right fun ⟨hw, habove⟩ ↦ ⟨(hunion _ _).mpr (Or.inl hw), habove⟩,
      fun v m hw ↦ ?_⟩
    rcases (hunion v m).mp hw with hw | hw
    · exact hr.upper v m hw
    · exact (hupper v m hw).trans (not_lt.mp hlt)

/-- One more write. -/
theorem Latest.update {initial r : LWWReg V M} {writes writes' : V → M → Prop}
    (hr : Latest initial writes r) (val : V) (marker : M)
    (hunion : ∀ v m, writes' v m ↔ writes v m ∨ (v = val ∧ m = marker)) :
    Latest initial writes' (r.update val marker) := by
  have hupper : ∀ v m, v = val ∧ m = marker → m ≤ marker := fun _ _ hw ↦ hw.2.le
  exact hr.absorb (s := ⟨val, marker⟩) (Or.inr ⟨rfl, rfl⟩) hupper hunion

/-- The writes of two registers. -/
theorem Latest.merge {initial r s : LWWReg V M} {writes writes' writes'' : V → M → Prop}
    (hr : Latest initial writes r) (hs : Latest initial writes' s)
    (hunion : ∀ v m, writes'' v m ↔ writes v m ∨ writes' v m) :
    Latest initial writes'' (r.update s.val s.marker) := by
  refine hr.absorb ?_ hs.upper hunion
  rcases hs.source with rfl | ⟨hw, _⟩
  · exact Or.inl le_rfl
  · exact Or.inr hw

/-- Assumes: a marker above the initial one determines the value written with it. The writes determine
the register. -/
theorem Latest.unique {initial r s : LWWReg V M} {writes : V → M → Prop}
    (hfunctional : ∀ v v' m, initial.marker < m → writes v m → writes v' m → v = v')
    (hr : Latest initial writes r) (hs : Latest initial writes s) : r = s := by
  have hmarker : r.marker = s.marker := by
    refine le_antisymm ?_ ?_
    · rcases hr.source with rfl | ⟨hw, _⟩
      · exact hs.initial_le
      · exact hs.upper _ _ hw
    · rcases hs.source with rfl | ⟨hw, _⟩
      · exact hr.initial_le
      · exact hr.upper _ _ hw
  rcases hr.source with hri | ⟨hrw, hrlt⟩
  · rcases hs.source with hsi | ⟨_, hslt⟩
    · rw [hri, hsi]
    · rw [← hmarker, hri] at hslt
      exact absurd hslt (lt_irrefl _)
  · rcases hs.source with hsi | ⟨hsw, _⟩
    · rw [hmarker, hsi] at hrlt
      exact absurd hrlt (lt_irrefl _)
    · have hval := hfunctional r.val s.val r.marker hrlt hrw (hmarker ▸ hsw)
      obtain ⟨rv, rm⟩ := r
      obtain ⟨sv, sm⟩ := s
      simp only at hval hmarker
      rw [hval, hmarker]

/-- A written register holds a write above the initial marker with the greatest marker, or no write
was above the initial marker and it is the initial register. -/
theorem Latest.greatest {initial r : LWWReg V M} {writes : V → M → Prop}
    (h : Latest initial writes r) :
    (writes r.val r.marker ∧ initial.marker < r.marker ∧ ∀ v m, writes v m → m ≤ r.marker) ∨
      (r = initial ∧ ∀ v m, writes v m → m ≤ initial.marker) := by
  rcases h.source with rfl | ⟨hw, hlt⟩
  · exact Or.inr ⟨rfl, h.upper⟩
  · exact Or.inl ⟨hw, hlt, h.upper⟩

/-- A register absorbs itself. -/
@[simp] theorem LWWReg.update_self (r : LWWReg V M) : r.update r.val r.marker = r := by
  rw [LWWReg.update, if_neg (lt_irrefl _)]

/-- Absorbing an older register, after it was written with the marker of this one, changes nothing. -/
theorem LWWReg.update_update_of_lt {r s : LWWReg V M} (hlt : r.marker < s.marker) (val : V) :
    s.update (r.update val s.marker).val (r.update val s.marker).marker = s := by
  rw [LWWReg.update, LWWReg.update, if_pos hlt, if_neg (lt_irrefl _)]

/-- A register absorbs what it becomes by a write. -/
theorem LWWReg.update_written (r : LWWReg V M) (val : V) (marker : M) :
    r.update (r.update val marker).val (r.update val marker).marker = r.update val marker := by
  by_cases hlt : r.marker < marker
  · have hwritten : r.update val marker = ⟨val, marker⟩ := if_pos hlt
    rw [hwritten, hwritten]
  · have hkept : r.update val marker = r := if_neg hlt
    rw [hkept, LWWReg.update_self]

/-- Two registers that show one value, also after each absorbs what one of them becomes by a write with
the other's marker, are equal: the write reaches the older of the two only. -/
theorem LWWReg.eq_of_val_update_eq {r s : LWWReg V M} {val : V} (hval : r.val = s.val)
    (hother : val ≠ r.val)
    (hr : (r.update (r.update val s.marker).val (r.update val s.marker).marker).val =
      (s.update (r.update val s.marker).val (r.update val s.marker).marker).val)
    (hs : (r.update (s.update val r.marker).val (s.update val r.marker).marker).val =
      (s.update (s.update val r.marker).val (s.update val r.marker).marker).val) : r = s := by
  have hmarker : r.marker = s.marker := by
    rcases lt_trichotomy r.marker s.marker with hlt | heq | hlt
    · rw [LWWReg.update_update_of_lt hlt, LWWReg.update_written, LWWReg.update, if_pos hlt] at hr
      exact absurd (hr.trans hval.symm) hother
    · exact heq
    · rw [LWWReg.update_update_of_lt hlt, LWWReg.update_written, LWWReg.update, if_pos hlt] at hs
      exact absurd hs.symm hother
  obtain ⟨rv, rm⟩ := r
  obtain ⟨sv, sm⟩ := s
  simp only at hval hmarker
  rw [hval, hmarker]

end LastWriter
