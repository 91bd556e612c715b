/-
The state that the flattener merges the layers into.

The inodes in it are the last ones of every number over all layers, the directory nodes the last
ones of every hash.  A slab stands there once, with the locators of all its entries.
-/
import LimniFS.FlattenManifest

namespace LimniFS

open Lib Lib.Parser Cursor

/-! ### The layers -/

theorem readLayer_ok {z : Omnizip} {i j : Nat} {layer : Bytes} {p : MetadataBlob × List SlabIndexEntry}
    (h : readLayer z i layer = .ok p) : readLayer z j layer = .ok p := by
  unfold readLayer at h ⊢
  split at h
  · cases h
  · split at h
    · cases h
    · exact h

theorem readLayer_eq_ok {z : Omnizip} {i : Nat} {layer : Bytes} {blob : MetadataBlob}
    {slabs : List SlabIndexEntry} :
    readLayer z i layer = .ok (blob, slabs) ↔ ∃ parsed blobBytes, parseLayer z layer = .ok parsed ∧
      parsed.metadataReference.inlineMetadata = some blobBytes ∧
      (parseMetadataBlob blobBytes).1 = .ok blob ∧ parsed.slabIndex = slabs := by
  unfold readLayer
  constructor
  · intro h
    split at h
    · cases h
    · next parsed hparsed =>
        split at h
        · cases h
        · next blobBytes hinline =>
            split at h
            · cases h
            · next found hblob =>
                cases h
                exact ⟨parsed, blobBytes, hparsed, hinline, hblob, rfl⟩
  · rintro ⟨parsed, blobBytes, hparsed, hinline, hblob, rfl⟩
    simp only [hparsed, hinline, hblob]

variable (H : Hash)

/-- The layers one after another. -/
def MergedLayers.addAll (m : MergedLayers) (parsed : List (MetadataBlob × List SlabIndexEntry)) :
    MergedLayers :=
  parsed.foldl (fun m p => m.add H p.1 p.2) m

variable {H}

theorem mergeLayers_eq_ok {z : Omnizip} {layers : List Bytes} {i : Nat} {m merged : MergedLayers} :
    mergeLayers H z i m layers = .ok merged ↔
      ∃ parsed, List.Forall₂ (fun layer p => readLayer z 0 layer = .ok p) layers parsed ∧
        merged = m.addAll H parsed := by
  induction layers generalizing i m with
  | nil =>
      rw [mergeLayers]
      constructor
      · rintro ⟨⟩
        exact ⟨[], .nil, rfl⟩
      · rintro ⟨parsed, hparsed, rfl⟩
        cases hparsed
        rfl
  | cons layer rest ih =>
      rw [mergeLayers]
      constructor
      · intro h
        split at h
        · cases h
        · next blob slabIndex hlayer =>
            obtain ⟨parsed, hparsed, rfl⟩ := ih.mp h
            exact ⟨(blob, slabIndex) :: parsed, .cons (readLayer_ok hlayer) hparsed, rfl⟩
      · rintro ⟨parsed, hparsed, rfl⟩
        cases hparsed with
        | cons hlayer hparsed =>
            rw [readLayer_ok hlayer]
            exact ih.mpr ⟨_, hparsed, rfl⟩

theorem addAll_inodes (m : MergedLayers) (parsed : List (MetadataBlob × List SlabIndexEntry)) :
    (m.addAll H parsed).inodes
      = insertAll Inode.number m.inodes (parsed.flatMap fun p => p.1.inodes) := by
  induction parsed generalizing m with
  | nil => rfl
  | cons p rest ih =>
      rw [List.flatMap_cons, insertAll_append]
      exact ih (m.add H p.1 p.2)

theorem addAll_dirNodes (m : MergedLayers) (parsed : List (MetadataBlob × List SlabIndexEntry)) :
    (m.addAll H parsed).dirNodes = insertAll (fun node => dirNodeHash H node.entries) m.dirNodes
      (parsed.flatMap fun p => p.1.dirNodes) := by
  induction parsed generalizing m with
  | nil => rfl
  | cons p rest ih =>
      rw [List.flatMap_cons, insertAll_append]
      exact ih (m.add H p.1 p.2)

theorem addAll_slabEntries (m : MergedLayers) (parsed : List (MetadataBlob × List SlabIndexEntry)) :
    (m.addAll H parsed).slabEntries
      = (parsed.flatMap Prod.snd).foldl mergeSlab m.slabEntries := by
  induction parsed generalizing m with
  | nil => rfl
  | cons p rest ih =>
      rw [List.flatMap_cons, List.foldl_append]
      exact ih (m.add H p.1 p.2)

/-! ### Inodes and directory nodes -/

section

variable {m : MergedLayers} {inodes : List Inode} {nodes : List DirectoryNode}

theorem sortedInodes_perm (h : m.inodes = insertAll Inode.number ∅ inodes) :
    m.sortedInodes.Perm (latest Inode.number inodes) := by
  refine (List.mergeSort_perm _ _).trans ?_
  rw [h]
  exact values_insertAll_perm inodes

theorem sortedInodes_nodup (h : m.inodes = insertAll Inode.number ∅ inodes) :
    (m.sortedInodes.map Inode.number).Nodup :=
  ((sortedInodes_perm h).map _).nodup_iff.mpr (latest_nodup_keys inodes)

theorem node_of_hash (hnodes : ∀ node ∈ nodes, node.Parsed)
    (hfree : NoCollision H (nodes.map fun node => dirNodeBytes node.entries)) {a b : DirectoryNode}
    (ha : a ∈ nodes) (hb : b ∈ nodes) (h : dirNodeHash H a.entries = dirNodeHash H b.entries) : a = b := by
  have hbytes := hfree _ (List.mem_map_of_mem ha) _ (List.mem_map_of_mem hb) h
  have hread : ∀ node ∈ nodes, parseDirectoryNode (dirNodeBytes node.entries ++ []) = (.ok node, []) :=
    fun node hnode => parseDirectoryNode_eq_ok.mpr
      ⟨(hnodes node hnode).version, (hnodes node hnode).valid, (hnodes node hnode).fit, rfl⟩
  have hsame := hread a ha
  rw [hbytes, hread b hb] at hsame
  exact (Except.ok.inj (Prod.mk.inj hsame).1).symm

theorem mem_latest_nodes (hnodes : ∀ node ∈ nodes, node.Parsed)
    (hfree : NoCollision H (nodes.map fun node => dirNodeBytes node.entries)) {node : DirectoryNode} :
    node ∈ latest (fun node => dirNodeHash H node.entries) nodes ↔ node ∈ nodes := by
  refine ⟨fun h => latest_subset nodes h, fun h => ?_⟩
  rw [mem_latest]
  have hsome : (nodes.reverse.find? fun c => dirNodeHash H c.entries = dirNodeHash H node.entries).isSome := by
    rw [List.find?_isSome]
    exact ⟨node, by simpa using h, by simp⟩
  obtain ⟨found, hfound⟩ := Option.isSome_iff_exists.mp hsome
  have hmem : found ∈ nodes := by simpa using List.mem_of_find?_eq_some hfound
  rw [hfound, node_of_hash hnodes hfree hmem h (by simpa using List.find?_some hfound)]

theorem dirNodeByHash_eq_some {blob : MetadataBlob} (hnodes : ∀ node ∈ blob.dirNodes, node.Parsed)
    (hfree : NoCollision H (blob.dirNodes.map fun node => dirNodeBytes node.entries)) {hash : Digest}
    {node : DirectoryNode} : blob.dirNodeByHash H hash = some node ↔
      node ∈ blob.dirNodes ∧ dirNodeHash H node.entries = hash := by
  unfold MetadataBlob.dirNodeByHash
  constructor
  · intro h
    exact ⟨List.mem_of_find?_eq_some h, by simpa using List.find?_some h⟩
  · rintro ⟨hin, rfl⟩
    have hsome : (blob.dirNodes.find? fun n => dirNodeHash H n.entries == dirNodeHash H node.entries).isSome := by
      rw [List.find?_isSome]
      exact ⟨node, hin, by simp⟩
    obtain ⟨found, hfound⟩ := Option.isSome_iff_exists.mp hsome
    rw [hfound, node_of_hash hnodes hfree (List.mem_of_find?_eq_some hfound) hin
      (by simpa using List.find?_some hfound)]

theorem sortedDirNodes_perm
    (h : m.dirNodes = insertAll (fun node => dirNodeHash H node.entries) ∅ nodes) :
    (m.sortedDirNodes H).Perm (latest (fun node => dirNodeHash H node.entries) nodes) := by
  refine (List.mergeSort_perm _ _).trans ?_
  rw [h]
  exact values_insertAll_perm nodes

theorem sortedDirNodes_nodup
    (h : m.dirNodes = insertAll (fun node => dirNodeHash H node.entries) ∅ nodes) :
    (m.sortedDirNodes H).Nodup :=
  (sortedDirNodes_perm h).nodup_iff.mpr (latest_nodup_keys nodes).of_map

end

/-! ### Slabs -/

theorem mem_pushLocators (locators : List LocatorEntry) (uris : List Bytes) (uri : Bytes) :
    uri ∈ locators.foldl pushLocator uris ↔ uri ∈ uris ∨ ⟨uri⟩ ∈ locators := by
  induction locators generalizing uris with
  | nil => simp
  | cons locator rest ih =>
      rw [List.foldl_cons, ih]
      obtain ⟨u⟩ := locator
      unfold pushLocator
      split
      · next hin =>
          simp only [List.mem_cons, LocatorEntry.mk.injEq]
          constructor
          · rintro (h | h)
            · exact .inl h
            · exact .inr (.inr h)
          · rintro (h | rfl | h)
            · exact .inl h
            · exact .inl hin
            · exact .inr h
      · simp only [List.mem_append, List.mem_cons, List.not_mem_nil, or_false, LocatorEntry.mk.injEq]
        exact or_assoc

theorem mergeSlab_of_notMem {entries : List MergedSlab} {slab : SlabIndexEntry}
    (h : slab.slabId ∉ entries.map Prod.fst) :
    mergeSlab entries slab = entries ++ [(slab.slabId, slab.locators.map LocatorEntry.uri)] := by
  induction entries with
  | nil => rfl
  | cons entry rest ih =>
      rw [List.map_cons, List.mem_cons, not_or] at h
      rw [mergeSlab, if_neg (fun heq => h.1 heq.symm), ih h.2, List.cons_append]

theorem mergeSlab_of_mem {entries : List MergedSlab} {slab : SlabIndexEntry}
    (h : slab.slabId ∈ entries.map Prod.fst) :
    ∃ before uris after, entries = before ++ (slab.slabId, uris) :: after ∧
      mergeSlab entries slab
        = before ++ (slab.slabId, slab.locators.foldl pushLocator uris) :: after := by
  induction entries with
  | nil => cases h
  | cons entry rest ih =>
      by_cases heq : entry.1 = slab.slabId
      · refine ⟨[], entry.2, rest, ?_, ?_⟩
        · rw [List.nil_append, ← heq]
        · rw [mergeSlab, if_pos heq, heq, List.nil_append]
      · rw [List.map_cons, List.mem_cons] at h
        obtain ⟨before, uris, after, hrest, hmerge⟩ := ih (h.resolve_left fun h => heq h.symm)
        refine ⟨entry :: before, uris, after, by rw [hrest, List.cons_append], ?_⟩
        rw [mergeSlab, if_neg heq, hmerge, List.cons_append]

/-- Every slab once, with the locators of all its entries. -/
structure SlabsMerged (slabs : List SlabIndexEntry) (entries : List MergedSlab) : Prop where
  nodup : (entries.map Prod.fst).Nodup
  ids : ∀ id, id ∈ entries.map Prod.fst ↔ id ∈ slabs.map SlabIndexEntry.slabId
  uris : ∀ entry ∈ entries, ∀ uri, uri ∈ entry.2 ↔
    ∃ slab ∈ slabs, slab.slabId = entry.1 ∧ ⟨uri⟩ ∈ slab.locators

theorem SlabsMerged.uris_of_ne {slabs : List SlabIndexEntry} {entries : List MergedSlab}
    (h : SlabsMerged slabs entries) {slab : SlabIndexEntry} {entry : MergedSlab} (hentry : entry ∈ entries)
    (hne : entry.1 ≠ slab.slabId) (uri : Bytes) :
    uri ∈ entry.2 ↔ ∃ s ∈ slabs ++ [slab], s.slabId = entry.1 ∧ ⟨uri⟩ ∈ s.locators := by
  rw [h.uris entry hentry uri]
  refine ⟨fun ⟨s, hs, hid, hl⟩ => ⟨s, List.mem_append_left _ hs, hid, hl⟩, ?_⟩
  rintro ⟨s, hs, hid, hl⟩
  rcases List.mem_append.mp hs with hs | hs
  · exact ⟨s, hs, hid, hl⟩
  · rw [List.mem_singleton.mp hs] at hid
    exact absurd hid.symm hne

theorem SlabsMerged.snoc {slabs : List SlabIndexEntry} {entries : List MergedSlab}
    (h : SlabsMerged slabs entries) (slab : SlabIndexEntry) :
    SlabsMerged (slabs ++ [slab]) (mergeSlab entries slab) := by
  by_cases hin : slab.slabId ∈ entries.map Prod.fst
  · obtain ⟨before, uris, after, rfl, hmerge⟩ := mergeSlab_of_mem hin
    have hids : (mergeSlab (before ++ (slab.slabId, uris) :: after) slab).map Prod.fst
        = (before ++ (slab.slabId, uris) :: after).map Prod.fst := by
      rw [hmerge, List.map_append, List.map_append, List.map_cons, List.map_cons]
    refine ⟨by rw [hids]; exact h.nodup, fun id => ?_, fun entry hentry uri => ?_⟩
    · rw [hids, h.ids, List.map_append, List.mem_append]
      refine ⟨.inl, fun hid => hid.elim (fun hid => hid) fun hid => ?_⟩
      rw [List.mem_singleton.mp hid]
      exact (h.ids _).mp hin
    · have hnodup := h.nodup
      rw [List.map_append, List.map_cons, List.nodup_append, List.nodup_cons] at hnodup
      obtain ⟨-, ⟨hafter, -⟩, hbefore⟩ := hnodup
      rw [hmerge, List.mem_append, List.mem_cons] at hentry
      rcases hentry with hentry | rfl | hentry
      · refine h.uris_of_ne (List.mem_append_left _ hentry) ?_ uri
        exact hbefore _ (List.mem_map_of_mem hentry) _ List.mem_cons_self
      · have hold := h.uris (slab.slabId, uris) (List.mem_append_right _ List.mem_cons_self) uri
        rw [mem_pushLocators, hold]
        constructor
        · rintro (⟨s, hs, hid, hl⟩ | hl)
          · exact ⟨s, List.mem_append_left _ hs, hid, hl⟩
          · exact ⟨slab, List.mem_append_right _ (List.mem_singleton_self _), rfl, hl⟩
        · rintro ⟨s, hs, hid, hl⟩
          rcases List.mem_append.mp hs with hs | hs
          · exact .inl ⟨s, hs, hid, hl⟩
          · rw [List.mem_singleton.mp hs] at hl
            exact .inr hl
      · refine h.uris_of_ne (List.mem_append_right _ (List.mem_cons_of_mem _ hentry)) ?_ uri
        intro heq
        exact hafter (List.mem_map.mpr ⟨entry, hentry, heq⟩)
  · rw [mergeSlab_of_notMem hin]
    refine ⟨?_, fun id => ?_, fun entry hentry uri => ?_⟩
    · rw [List.map_append, List.nodup_append]
      refine ⟨h.nodup, List.nodup_singleton _, fun a ha b hb heq => hin ?_⟩
      have hid : b = slab.slabId := List.mem_singleton.mp hb
      rwa [← hid, ← heq]
    · simp only [List.map_append, List.mem_append, h.ids, List.map_cons, List.map_nil]
    · rcases List.mem_append.mp hentry with hentry | hentry
      · refine h.uris_of_ne hentry (fun heq => hin ?_) uri
        exact heq ▸ List.mem_map_of_mem hentry
      · obtain rfl := List.mem_singleton.mp hentry
        constructor
        · intro huri
          obtain ⟨l, hl, rfl⟩ := List.mem_map.mp huri
          exact ⟨slab, List.mem_append_right _ (List.mem_singleton_self _), rfl, hl⟩
        · rintro ⟨s, hs, hid, hl⟩
          rcases List.mem_append.mp hs with hs | hs
          · exact absurd ((h.ids _).mpr (List.mem_map.mpr ⟨s, hs, hid⟩)) hin
          · rw [List.mem_singleton.mp hs] at hl
            exact List.mem_map_of_mem hl

theorem slabsMerged (slabs : List SlabIndexEntry) : SlabsMerged slabs (slabs.foldl mergeSlab []) := by
  suffices hall : ∀ done entries, SlabsMerged done entries →
      SlabsMerged (done ++ slabs) (slabs.foldl mergeSlab entries) by
    exact hall [] [] ⟨List.nodup_nil, fun _ => Iff.rfl, fun _ hin => absurd hin List.not_mem_nil⟩
  induction slabs with
  | nil =>
      intro done entries h
      rw [List.append_nil]
      exact h
  | cons slab rest ih =>
      intro done entries h
      rw [List.foldl_cons, List.append_cons]
      exact ih _ _ (h.snoc slab)

theorem SlabsMerged.valid {slabs : List SlabIndexEntry} {entries : List MergedSlab}
    (h : SlabsMerged slabs entries) (hslabs : ∀ slab ∈ slabs, slab.Parsed) :
    ∀ entry ∈ entries, entry.Valid := by
  intro entry hentry
  obtain ⟨slab, hslab, hid⟩ := List.mem_map.mp ((h.ids _).mp (List.mem_map_of_mem hentry))
  refine ⟨hid ▸ (hslabs slab hslab).ordinal, fun hnil => ?_, fun uri huri => ?_⟩
  · obtain ⟨l, hl⟩ := List.exists_mem_of_ne_nil _ (hslabs slab hslab).nonempty
    have hin := (h.uris entry hentry l.uri).mpr ⟨slab, hslab, hid, hl⟩
    rw [hnil] at hin
    cases hin
  · obtain ⟨s, hs, -, hl⟩ := (h.uris entry hentry uri).mp huri
    exact (hslabs s hs).locators _ hl

theorem mergeSlabs_single {slabs : List SlabIndexEntry}
    (h : (slabs.map SlabIndexEntry.slabId).Nodup) :
    slabs.foldl mergeSlab []
      = slabs.map fun slab => (slab.slabId, slab.locators.map LocatorEntry.uri) := by
  suffices hall : ∀ done : List MergedSlab, (done.map Prod.fst ++ slabs.map SlabIndexEntry.slabId).Nodup →
      slabs.foldl mergeSlab done
        = done ++ slabs.map fun slab => (slab.slabId, slab.locators.map LocatorEntry.uri) by
    exact hall [] h
  clear h
  induction slabs with
  | nil => simp
  | cons slab rest ih =>
      intro done h
      rw [List.map_cons, List.nodup_append] at h
      have hnew : slab.slabId ∉ done.map Prod.fst := fun hin =>
        h.2.2 _ hin _ List.mem_cons_self rfl
      rw [List.foldl_cons, mergeSlab_of_notMem hnew, ih]
      · simp
      · simp only [List.map_append, List.map_cons, List.map_nil, List.append_assoc, List.cons_append,
          List.nil_append]
        exact List.nodup_append.mpr h

end LimniFS
