import DidCrdt.Sync.Gossip

/-!
# Snapshots

Stored snapshots are blobs under the digest of their bytes. The tag of an identifier points at the
snapshot that was saved last (`BlobStore.save`), and a restarted process rebuilds its documents from
the tags (`BlobStore.loadAll`, `Docs.recover`). A tag is named by the identifier of its document, so
tags are keyed by identifiers here.
-/

set_option autoImplicit false
set_option relaxedAutoImplicit false

namespace DidCrdt

open Std (ExtTreeMap)

/-- The BLAKE3 digest of the bytes of a blob. -/
class BlobDigest [Codec] where
  digest : Codec.Bytes → Blake3Hash

/-- A digest that can be evaluated, of stored forms kept as they are: the length of the log. -/
@[reducible]
def BlobDigest.readable : @BlobDigest .verbatim :=
  @BlobDigest.mk .verbatim fun r ↦ Fin.ofNat _ r.deltaLog.length

/-- The blobs by digest, and the snapshot that each tag points at. -/
structure BlobStore [Codec] where
  blobs : ExtTreeMap Blake3Hash Codec.Bytes compare
  tags : ExtTreeMap Did Blake3Hash compare

namespace BlobStore

variable [Codec]

/-- No blobs and no tags. -/
def empty : BlobStore := ⟨∅, ∅⟩

/-- Saves a snapshot, and points the tag of its identifier at it. -/
def save [BlobDigest] (store : BlobStore) (doc : Document) : BlobStore × Blake3Hash :=
  let bytes := doc.toBytes
  let hash := BlobDigest.digest bytes
  (⟨store.blobs.insert hash bytes, store.tags.insert doc.did hash⟩, hash)

/-- The digest that the tag of an identifier points at. -/
def latestHash (store : BlobStore) (did : Did) : Option Blake3Hash := store.tags[did]?

variable [Primitives]

/-- The document of a snapshot. -/
def load (store : BlobStore) (hash : Blake3Hash) : Except String (Option Document) :=
  match store.blobs[hash]? with
  | none => .ok none
  | some bytes =>
    match Document.fromBytes bytes with
    | .error e => .error e
    | .ok doc => .ok (some doc)

/-- The document of a tag, unless its snapshot is absent, unreadable or of another document. -/
def loadTag (store : BlobStore) (did : Did) (hash : Blake3Hash) : Option Document :=
  match store.load hash with
  | .ok (some doc) => if doc.did = did then some doc else none
  | _ => none

/-- The documents of all tags that can be read. -/
def loadAll (store : BlobStore) : List Document :=
  store.tags.toList.filterMap fun tag ↦ store.loadTag tag.1 tag.2

/-- The document that the tag of an identifier points at. -/
def tagged (store : BlobStore) (did : Did) : Option Document :=
  (store.latestHash did).bind (store.loadTag did)

theorem mem_loadAll_iff (store : BlobStore) (doc : Document) :
    doc ∈ store.loadAll ↔ ∃ did, store.tagged did = some doc := by
  unfold loadAll tagged latestHash
  rw [List.mem_filterMap]
  constructor
  · rintro ⟨⟨did, hash⟩, htag, hload⟩
    refine ⟨did, ?_⟩
    rw [(OrderedMaps.mem_toList_iff store.tags did hash).mp htag]
    exact hload
  · rintro ⟨did, htagged⟩
    obtain ⟨hash, htag, hload⟩ := Option.bind_eq_some_iff.mp htagged
    exact ⟨(did, hash), (OrderedMaps.mem_toList_iff store.tags did hash).mpr htag, hload⟩

theorem did_of_tagged {store : BlobStore} {did : Did} {doc : Document}
    (h : store.tagged did = some doc) : doc.did = did := by
  obtain ⟨hash, _, hload⟩ := Option.bind_eq_some_iff.mp h
  unfold loadTag at hload
  split at hload
  · split_ifs at hload with hdid
    rwa [← Option.some.inj hload]
  · exact absurd hload (by simp)

end BlobStore

/-- The documents of a process that starts over a store. -/
def Docs.recover [Codec] [Primitives] (store : BlobStore) : Docs :=
  store.loadAll.foldl (fun docs doc ↦ docs.insert doc.did doc) ∅

end DidCrdt
