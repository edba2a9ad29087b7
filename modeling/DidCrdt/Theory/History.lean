import DidCrdt.Core.Document

/-!
# Histories

A log of deltas is a history when it starts with the creation delta and every later delta is new and
comes after its parents, of which it has at least one (`History`). The DAG rebuilt from a history
knows exactly its deltas, and the closure that the DAG computes is the causal past within the log
(`closure_rebuild_iff`).

The causal past of a delta is the same in every history that holds its parents, and the same as in
any collection of deltas around it that has no hash collisions (`past_iff_of_closed`). So a question
about the past of a delta has one answer, whichever replica is asked (`pastHas_iff_of_closed`).
-/

set_option autoImplicit false
set_option relaxedAutoImplicit false

namespace DidCrdt

/-- The deltas of a list. -/
def members (log : List SignedDelta) : Set SignedDelta := {d | d ∈ log}

@[simp] theorem mem_members (log : List SignedDelta) (d : SignedDelta) :
    d ∈ members log ↔ d ∈ log := Iff.rfl

theorem insert_members (d : SignedDelta) (log : List SignedDelta) :
    insert d (members log) = members (d :: log) := by
  ext e
  simp [members]

/-- The property reads the operation only. -/
def OfOp (P : SignedDelta → Prop) : Prop := ∀ d e : SignedDelta, d.op = e.op → P d → P e

theorem ofOp_addsMethod (id : String) : OfOp fun a ↦ a.AddsMethod id := by
  rintro d e hop ⟨pk, suite, rels, h⟩
  exact ⟨pk, suite, rels, hop ▸ h⟩

theorem ofOp_introduces (id pk : String) : OfOp fun a ↦ a.Introduces id pk := by
  rintro d e hop ⟨suite, rels, h⟩
  exact ⟨suite, rels, hop ▸ h⟩

theorem ofOp_revokesMethod (id : String) : OfOp fun r ↦ r.RevokesMethod id :=
  fun _ _ hop h ↦ hop.symm.trans h

theorem ofOp_deactivates : OfOp SignedDelta.Deactivates :=
  fun _ _ hop h ↦ hop.symm.trans h

variable [Primitives]

/-! ### The causal past -/

/-- A delta of the collection with the hash names the other hash as a parent. -/
def NamesParent (deltas : Set SignedDelta) (h p : DeltaHash) : Prop :=
  ∃ d ∈ deltas, d.contentHash = h ∧ p ∈ d.parents

/-- The hash is one of the parents, or named by a delta whose hash is in their past. -/
def Past (deltas : Set SignedDelta) (parents : List DeltaHash) (h : DeltaHash) : Prop :=
  ∃ p ∈ parents, Relation.ReflTransGen (NamesParent deltas) p h

/-- Some delta of the past has the property. -/
def PastHas (deltas : Set SignedDelta) (parents : List DeltaHash) (P : SignedDelta → Prop) : Prop :=
  ∃ a ∈ deltas, Past deltas parents a.contentHash ∧ P a

/-- The collection holds a delta with every hash that one of its deltas names as a parent. -/
def ParentClosed (deltas : Set SignedDelta) : Prop :=
  ∀ d ∈ deltas, ∀ p ∈ d.parents, ∃ e ∈ deltas, e.contentHash = p

theorem mem_hashes_iff (log : List SignedDelta) (h : DeltaHash) :
    h ∈ log.map SignedDelta.contentHash ↔ ∃ e ∈ members log, e.contentHash = h :=
  List.mem_map

section Past

variable {deltas others : Set SignedDelta} {parents : List DeltaHash} {h p : DeltaHash}

theorem Past.of_mem (hp : p ∈ parents) : Past deltas parents p :=
  ⟨p, hp, .refl⟩

theorem Past.step {d : SignedDelta} (hpast : Past deltas parents d.contentHash) (hd : d ∈ deltas)
    (hp : p ∈ d.parents) : Past deltas parents p := by
  obtain ⟨q, hq, hreach⟩ := hpast
  exact ⟨q, hq, hreach.tail ⟨d, hd, rfl, hp⟩⟩

theorem Past.mono (hsub : deltas ⊆ others) (hpast : Past deltas parents h) :
    Past others parents h := by
  obtain ⟨q, hq, hreach⟩ := hpast
  have hnames : ∀ a b, NamesParent deltas a b → NamesParent others a b := by
    rintro a b ⟨d, hd, hkey, hb⟩
    exact ⟨d, hsub hd, hkey, hb⟩
  exact ⟨q, hq, Relation.ReflTransGen.mono hnames q h hreach⟩

/-- Hashes that contain the parents, and with a delta its parents, contain the past. -/
theorem Past.mem_of_invariant {hashes : Set DeltaHash} (hparents : ∀ p ∈ parents, p ∈ hashes)
    (hclosed : ∀ d ∈ deltas, d.contentHash ∈ hashes → ∀ p ∈ d.parents, p ∈ hashes)
    (hpast : Past deltas parents h) : h ∈ hashes := by
  obtain ⟨q, hq, hreach⟩ := hpast
  induction hreach with
  | refl => exact hparents q hq
  | tail _ hstep ih =>
    obtain ⟨d, hd, hkey, hp⟩ := hstep
    exact hclosed d hd (hkey ▸ ih) _ hp

/-- Assumes: the parents are hashes of a parent-closed part of a collection without collisions. The
past in the collection is the past in the part, and stays in it. -/
theorem past_iff_of_closed (hfree : CollisionFree others) (hsub : deltas ⊆ others)
    (hclosed : ParentClosed deltas) (hparents : ∀ p ∈ parents, ∃ e ∈ deltas, e.contentHash = p) :
    Past others parents h ↔ Past deltas parents h ∧ ∃ e ∈ deltas, e.contentHash = h := by
  refine ⟨?_, fun hpast ↦ hpast.1.mono hsub⟩
  rintro ⟨q, hq, hreach⟩
  induction hreach with
  | refl => exact ⟨.of_mem hq, hparents q hq⟩
  | tail _ hstep ih =>
    obtain ⟨hpast, e, he, hkey⟩ := ih
    obtain ⟨d, hd, hdkey, hp⟩ := hstep
    have hsame : e.parents = d.parents :=
      hfree.parents_eq (hsub he) hd (hkey.trans hdkey.symm)
    have hp' := hsame ▸ hp
    exact ⟨Past.step (hkey.symm ▸ hpast) he hp', hclosed e he _ hp'⟩

/-- Assumes: the parents are hashes of a parent-closed part of a collection without collisions. A
property of operations holds in the past within the collection when it does within the part. -/
theorem pastHas_iff_of_closed {P : SignedDelta → Prop} (hP : OfOp P) (hfree : CollisionFree others)
    (hsub : deltas ⊆ others) (hclosed : ParentClosed deltas)
    (hparents : ∀ p ∈ parents, ∃ e ∈ deltas, e.contentHash = p) :
    PastHas others parents P ↔ PastHas deltas parents P := by
  constructor
  · rintro ⟨a, ha, hpast, hPa⟩
    obtain ⟨hpast', e, he, hkey⟩ := (past_iff_of_closed hfree hsub hclosed hparents).mp hpast
    refine ⟨e, he, hkey ▸ hpast', hP a e ?_ hPa⟩
    exact hfree.op_eq ha (hsub he) hkey.symm
  · rintro ⟨a, ha, hpast, hPa⟩
    exact ⟨a, hsub ha, hpast.mono hsub, hPa⟩

end Past

/-! ### Authorisation in a collection of deltas -/

/-- The past of the delta adds its signer, does not revoke it, and does not deactivate the
document. -/
structure AuthorisedIn (deltas : Set SignedDelta) (d : SignedDelta) : Prop where
  added : PastHas deltas d.parents fun a ↦ a.AddsMethod d.signer
  notRevoked : ¬ PastHas deltas d.parents fun r ↦ r.RevokesMethod d.signer
  notDeactivated : ¬ PastHas deltas d.parents SignedDelta.Deactivates

theorem authorisedIn_iff_of_closed {deltas others : Set SignedDelta} {d : SignedDelta}
    (hfree : CollisionFree others) (hsub : deltas ⊆ others) (hclosed : ParentClosed deltas)
    (hparents : ∀ p ∈ d.parents, ∃ e ∈ deltas, e.contentHash = p) :
    AuthorisedIn others d ↔ AuthorisedIn deltas d := by
  have hadds := pastHas_iff_of_closed (ofOp_addsMethod d.signer) hfree hsub hclosed hparents
  have hrevokes := pastHas_iff_of_closed (ofOp_revokesMethod d.signer) hfree hsub hclosed hparents
  have hdeactivates := pastHas_iff_of_closed ofOp_deactivates hfree hsub hclosed hparents
  constructor
  · rintro ⟨hadded, hrevoked, hdeactivated⟩
    exact ⟨hadds.mp hadded, mt hrevokes.mpr hrevoked, mt hdeactivates.mpr hdeactivated⟩
  · rintro ⟨hadded, hrevoked, hdeactivated⟩
    exact ⟨hadds.mpr hadded, mt hrevokes.mp hrevoked, mt hdeactivates.mp hdeactivated⟩

/-! ### Histories -/

/-- The log starts with the root, and every later delta is new and comes after its parents. -/
inductive History (root : SignedDelta) : List SignedDelta → Prop
  | start : root.parents = [] → History root [root]
  | snoc {log : List SignedDelta} {d : SignedDelta} : History root log → d.parents ≠ [] →
      d.contentHash ∉ log.map SignedDelta.contentHash →
      (∀ p ∈ d.parents, p ∈ log.map SignedDelta.contentHash) → History root (log ++ [d])

namespace History

variable {root : SignedDelta} {log : List SignedDelta}

theorem nodup (h : History root log) : (log.map SignedDelta.contentHash).Nodup := by
  induction h with
  | start => simp
  | snoc _ _ hnew _ ih =>
    rw [List.map_append, List.map_singleton]
    exact List.nodup_append.mpr ⟨ih, List.nodup_singleton _, fun a ha b hb ↦ by
      rw [List.mem_singleton.mp hb]
      exact fun heq ↦ hnew (heq ▸ ha)⟩

theorem root_mem (h : History root log) : root ∈ log := by
  induction h with
  | start => exact List.mem_singleton_self root
  | snoc _ _ _ _ ih => exact List.mem_append_left _ ih

/-- The root is the one delta without parents. -/
theorem eq_root (h : History root log) {d : SignedDelta} (hd : d ∈ log) (hparents : d.parents = []) :
    d = root := by
  induction h with
  | start => exact List.mem_singleton.mp hd
  | snoc _ hne _ _ ih =>
    rcases List.mem_append.mp hd with hd | hd
    · exact ih hd
    · rw [List.mem_singleton.mp hd] at hparents
      exact absurd hparents hne

theorem parentClosed (h : History root log) : ParentClosed (members log) := by
  induction h with
  | start hroot =>
    intro d hd p hp
    rw [List.mem_singleton.mp hd, hroot] at hp
    exact absurd hp List.not_mem_nil
  | @snoc log d _ _ _ hparents ih =>
    intro e he p hp
    have hearlier : p ∈ log.map SignedDelta.contentHash := by
      rcases List.mem_append.mp he with he | he
      · exact (mem_hashes_iff log p).mpr (ih e he p hp)
      · rw [List.mem_singleton.mp he] at hp
        exact hparents p hp
    obtain ⟨q, hq, hkey⟩ := (mem_hashes_iff log p).mp hearlier
    exact ⟨q, List.mem_append_left _ hq, hkey⟩

/-- Every parent of a delta occurs before it. -/
theorem parents_earlier (h : History root log) {before after : List SignedDelta} {d : SignedDelta}
    (hsplit : log = before ++ d :: after) {p : DeltaHash} (hp : p ∈ d.parents) :
    p ∈ before.map SignedDelta.contentHash := by
  induction h generalizing before after with
  | start hroot =>
    have hd : d ∈ [root] := by rw [hsplit]; simp
    rw [List.mem_singleton.mp hd, hroot] at hp
    exact absurd hp List.not_mem_nil
  | @snoc log e _ _ _ hparents ih =>
    rcases List.eq_nil_or_concat after with rfl | ⟨rest, last, rfl⟩
    · obtain ⟨rfl, heq⟩ := List.append_inj' hsplit rfl
      rw [List.singleton_inj.mp heq] at hparents
      exact hparents p hp
    · rw [List.concat_eq_append, ← List.cons_append, ← List.append_assoc] at hsplit
      exact ih (List.append_inj' hsplit rfl).1

/-- A delta whose parents are in a history and whose hash is not has no descendant in it: its hash
is not in the past of a delta of the history. -/
theorem past_mem (h : History root log) {parents : List DeltaHash}
    (hparents : ∀ p ∈ parents, p ∈ log.map SignedDelta.contentHash) {q : DeltaHash}
    (hpast : Past (members log) parents q) : q ∈ log.map SignedDelta.contentHash := by
  obtain ⟨p, hp, hreach⟩ := hpast
  induction hreach with
  | refl => exact hparents p hp
  | tail _ hstep _ =>
    obtain ⟨d, hd, _, hmem⟩ := hstep
    exact (mem_hashes_iff log _).mpr (h.parentClosed d hd _ hmem)

end History

/-! ### The DAG of a history -/

section Rebuild

variable {root : SignedDelta} {log : List SignedDelta} (hlog : History root log)

include hlog

theorem get_of_history (h : DeltaHash) (d : SignedDelta) :
    (DeltaDag.rebuild log).get h = some d ↔ d ∈ log ∧ d.contentHash = h :=
  DeltaDag.get_rebuild_iff hlog.nodup h d

theorem closure_rebuild_iff (parents : List DeltaHash) (h : DeltaHash) :
    (DeltaDag.rebuild log).Closure parents h ↔ Past (members log) parents h := by
  constructor
  · intro hclosure
    induction hclosure with
    | root hroot _ => exact .of_mem hroot
    | @step a b _ hsucc _ ih =>
      unfold DeltaDag.successors at hsucc
      cases hget : (DeltaDag.rebuild log).get a with
      | none => simp [hget] at hsucc
      | some d =>
        rw [hget] at hsucc
        obtain ⟨hmem, hkey⟩ := (get_of_history hlog a d).mp hget
        exact Past.step (hkey.symm ▸ ih) hmem hsucc
  · rintro ⟨q, hq, hreach⟩
    induction hreach with
    | refl => exact .root hq not_false
    | @tail a b _ hstep ih =>
      obtain ⟨d, hd, hkey, hp⟩ := hstep
      refine .step ih ?_ not_false
      rw [DeltaDag.successors, (get_of_history hlog a d).mpr ⟨hd, hkey⟩]
      exact hp

theorem closureHas_rebuild_iff (parents : List DeltaHash) (P : SignedDelta → Prop) :
    (DeltaDag.rebuild log).ClosureHas parents P ↔ PastHas (members log) parents P := by
  constructor
  · rintro ⟨h, hclosure, d, hget, hP⟩
    obtain ⟨hmem, rfl⟩ := (get_of_history hlog h d).mp hget
    exact ⟨d, hmem, (closure_rebuild_iff hlog parents _).mp hclosure, hP⟩
  · rintro ⟨d, hmem, hpast, hP⟩
    exact ⟨d.contentHash, (closure_rebuild_iff hlog parents _).mpr hpast, d,
      (get_of_history hlog _ d).mpr ⟨hmem, rfl⟩, hP⟩

/-- The closure of some parents is complete when the parents are held. -/
theorem closureComplete_rebuild_iff (parents : List DeltaHash) :
    (DeltaDag.rebuild log).ClosureComplete parents ↔
      ∀ p ∈ parents, p ∈ log.map SignedDelta.contentHash := by
  have hheld : ∀ h, (DeltaDag.rebuild log).contains h = true ↔
      h ∈ log.map SignedDelta.contentHash := by
    intro h
    rw [DeltaDag.contains_rebuild, List.mem_map]
  constructor
  · intro hcomplete p hp
    exact (hheld p).mp (hcomplete p (.root hp not_false))
  · intro hparents h hclosure
    exact (hheld h).mpr (hlog.past_mem hparents ((closure_rebuild_iff hlog parents h).mp hclosure))

/-- The DAG of a history finds a delta valid when its parents are held and the log authorises it. -/
theorem verifyCausal_rebuild_iff (d : SignedDelta) :
    verifyCausal d (.rebuild log) = .valid ↔
      d.parents ≠ [] ∧ (∀ p ∈ d.parents, p ∈ log.map SignedDelta.contentHash) ∧
        AuthorisedIn (members log) d := by
  by_cases hparents : d.parents = []
  · have hnonempty : (DeltaDag.rebuild log).isEmpty = false :=
      DeltaDag.isEmpty_eq_false_of_contains _
        ((DeltaDag.contains_rebuild log root.contentHash).mpr ⟨root, hlog.root_mem, rfl⟩)
    rw [verifyCausal_of_nil hparents hnonempty]
    simp [hparents]
  · rw [verifyCausal_eq_valid_iff hparents, closureComplete_rebuild_iff hlog, CausallyAuthorised]
    simp only [closureHas_rebuild_iff hlog]
    constructor
    · rintro ⟨hheld, hadded, hrevoked, hdeactivated⟩
      exact ⟨hparents, hheld, hadded, hrevoked, hdeactivated⟩
    · rintro ⟨_, hheld, hadded, hrevoked, hdeactivated⟩
      exact ⟨hheld, hadded, hrevoked, hdeactivated⟩

/-- An undecided delta has a parent that is not held. -/
theorem exists_missing_of_unknown {d : SignedDelta} {missing : List DeltaHash}
    (h : verifyCausal d (.rebuild log) = .unknown missing) :
    d.parents ≠ [] ∧ ∃ p ∈ d.parents, p ∉ log.map SignedDelta.contentHash := by
  by_cases hparents : d.parents = []
  · have hnonempty : (DeltaDag.rebuild log).isEmpty = false :=
      DeltaDag.isEmpty_eq_false_of_contains _
        ((DeltaDag.contains_rebuild log root.contentHash).mpr ⟨root, hlog.root_mem, rfl⟩)
    rw [verifyCausal_of_nil hparents hnonempty] at h
    exact absurd h (by simp)
  · have hincomplete := ((verifyCausal_eq_unknown_iff hparents missing).mp h).1
    rw [closureComplete_rebuild_iff hlog] at hincomplete
    push Not at hincomplete
    exact ⟨hparents, hincomplete⟩

end Rebuild

end DidCrdt
