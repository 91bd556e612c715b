/-
Contents that inodes share.

An inode may hold an index instead of its content; the contents stand in a table behind the directory
nodes, and the parser puts them in.  It does so where it reads the table, and it reads a table only if
four bytes are left.  A blob that ends before is accepted all the same, its indices stay, and every
reader takes such a file for an empty one (`filePlaintext_shared`).

`shared_inline_resolved_iff` says of which accepted blobs no index is left.
-/
import LimniFS.FlattenEncoding
import LimniFS.LiveTree

namespace LimniFS

open Lib Lib.Parser Cursor

/-- The content is still an index into the table. -/
def Inode.isShared (inode : Inode) : Bool :=
  match inode.contentHandle with
  | .sharedInline _ => true
  | _ => false

theorem filePlaintext_shared {inode : Inode} (h : inode.isShared = true) (store : Option SlabSource) :
    filePlaintext inode store = .ok [] := by
  unfold Inode.isShared at h
  unfold filePlaintext
  split at h
  · next hhandle => rw [hhandle]
  · cases h

/-! ### The table -/

/-- The entries of the table. -/
def parseSharedEntries (maxInlineBytes : Nat) : CoreParser (List Bytes) := do
  let sharedCount ← readU32Le
  loop (parseSharedInline maxInlineBytes) sharedCount 0 []

/-- The table that is read from these bytes, if there is one. -/
def sharedTable (maxInlineBytes : Nat) (bs : Bytes) : List Bytes :=
  match parseSharedEntries maxInlineBytes bs with
  | (.ok table, _) => table
  | (.error _, _) => []

/-- **What becomes of the inodes**: each is resolved in the table, or there is no room for one. -/
theorem parseSharedTable_eq_ok {maxInlineBytes : Nat} {inodes inodes' : List Inode} {bs rest : Bytes} :
    parseSharedTable maxInlineBytes inodes bs = (.ok inodes', rest) ↔
      (4 ≤ bs.length ∧ ∃ table, parseSharedEntries maxInlineBytes bs = (.ok table, rest) ∧
        List.Forall₂ (fun inode inode' => resolveSharedInline table inode = .ok inode') inodes inodes') ∨
      (bs.length < 4 ∧ inodes' = inodes ∧ rest = bs) := by
  have hlift : ∀ table mid, (liftExcept (inodes.mapM (resolveSharedInline table)) :
      CoreParser (List Inode)) mid = (.ok inodes', rest) ↔
        List.Forall₂ (fun inode inode' => resolveSharedInline table inode = .ok inode') inodes inodes' ∧
          mid = rest := by
    intro table mid
    rw [← mapM_ok_iff]
    rcases hmap : inodes.mapM (resolveSharedInline table) with e | resolved
    · constructor
      · intro h
        cases h
      · rintro ⟨h, -⟩
        cases h
    · rw [Except.ok.injEq]
      exact pure_eq_ok
  unfold parseSharedTable
  by_cases hroom : 4 ≤ bs.length
  · rw [if_pos hroom]
    simp only [parseSharedEntries, bind_eq_ok, hlift]
    constructor
    · rintro ⟨count, _, hcount, table, mid, hloop, hall, rfl⟩
      exact Or.inl ⟨hroom, table, ⟨count, _, hcount, hloop⟩, hall⟩
    · rintro (⟨-, table, ⟨count, _, hcount, hloop⟩, hall⟩ | ⟨hshort, -⟩)
      · exact ⟨count, _, hcount, table, rest, hloop, hall, rfl⟩
      · omega
  · rw [if_neg hroom]
    constructor
    · intro h
      cases h
      exact Or.inr ⟨Nat.lt_of_not_le hroom, rfl, rfl⟩
    · rintro (⟨hlong, -⟩ | ⟨-, rfl, rfl⟩)
      · exact absurd hlong hroom
      · rfl

/-- The reference is resolved to an entry of the table; an inode without one is what it was. -/
def Resolves (table : List Bytes) (record inode : Inode) : Prop :=
  match record.contentHandle with
  | .sharedInline index => ∃ data, table[index]? = some data ∧
      inode = { record with contentHandle := .inlineData data }
  | _ => inode = record

theorem resolveSharedInline_eq_ok {table : List Bytes} {record inode : Inode} :
    resolveSharedInline table record = .ok inode ↔ Resolves table record inode := by
  unfold resolveSharedInline Resolves
  cases record.contentHandle with
  | sharedInline index =>
      simp only
      cases table[index]? with
      | none => simp
      | some data => simp [eq_comm]
  | _ => simp [eq_comm]

theorem Resolves.not_shared {table : List Bytes} {record inode : Inode}
    (h : Resolves table record inode) : inode.isShared = false := by
  unfold Resolves at h
  split at h
  · obtain ⟨data, -, rfl⟩ := h
    rfl
  · next hhandle =>
      subst h
      unfold Inode.isShared
      split
      · next index heq => exact absurd heq (hhandle index)
      · rfl

theorem resolves_self {table : List Bytes} {record : Inode} (h : record.isShared = false) :
    Resolves table record record := by
  unfold Inode.isShared at h
  unfold Resolves
  split
  · next index heq =>
      rw [heq] at h
      cases h
  · rfl

/-! ### The records -/

/-- The inodes and directory nodes as they are written, and what is left behind them. -/
def parseBlobRecords (maxInlineBytes : Nat) : CoreParser (List Inode × List DirectoryNode) := do
  let inodeCount ← readU32Le
  demandLeft (inodeCount * (inodeFixedPrefixLen + 1))
  let inodes ← loop (parseInodes maxInlineBytes) inodeCount 0 []
  let dirNodeCount ← readU32Le
  demandLeft (dirNodeCount * 5)
  let dirNodes ← loop parseDirNodes dirNodeCount 0 []
  pure (inodes, dirNodes)

/-- A blob is its records and its table. -/
theorem parseMetadataBlob_records {maxInlineBytes : Nat} {blob : MetadataBlob} {bs rest : Bytes}
    (h : parseMetadataBlobWithCeiling maxInlineBytes bs = (.ok blob, rest)) :
    ∃ records behind, parseBlobRecords maxInlineBytes bs = (.ok (records, blob.dirNodes), behind) ∧
      parseSharedTable maxInlineBytes records behind = (.ok blob.inodes, rest) := by
  simp only [parseMetadataBlobWithCeiling, bind_eq_ok, pure_eq_ok] at h
  obtain ⟨n, _, hn, u, _, hu, inodes, _, hinodes, m, _, hm, v, _, hv, nodes, behind, hnodes, inodes', _,
    htable, rfl, rfl⟩ := h
  refine ⟨inodes, behind, ?_, htable⟩
  simp only [parseBlobRecords, bind_eq_ok, pure_eq_ok]
  exact ⟨n, _, hn, u, _, hu, inodes, _, hinodes, m, _, hm, v, _, hv, nodes, behind, hnodes, rfl, rfl⟩

/-! ### No index is left -/

/-- No content is an index, none is longer than the ceiling, and what was an index is the entry of
the table behind the records. -/
structure SharesResolved (bs : Bytes) (blob : MetadataBlob) : Prop where
  none_left : ∀ inode ∈ blob.inodes, inode.isShared = false
  ceiling : ∀ inode ∈ blob.inodes, ∀ data, inode.contentHandle = .inlineData data →
    data.length ≤ defaultInlineDataMaxBytes
  resolved : ∀ records nodes behind,
    parseBlobRecords defaultInlineDataMaxBytes bs = (.ok (records, nodes), behind) →
    List.Forall₂ (Resolves (sharedTable defaultInlineDataMaxBytes behind)) records blob.inodes

/-- There is room for a table behind the records, or nothing refers to it. -/
def RoomForShared (bs : Bytes) : Prop :=
  ∀ records nodes behind,
    parseBlobRecords defaultInlineDataMaxBytes bs = (.ok (records, nodes), behind) →
    4 ≤ behind.length ∨ ∀ record ∈ records, record.isShared = false

/-- **No index is left in a blob exactly if four bytes follow its records or none of them refers to
the table.** -/
theorem shared_inline_resolved_iff {bs rest : Bytes} {blob : MetadataBlob}
    (h : parseMetadataBlob bs = (.ok blob, rest)) : SharesResolved bs blob ↔ RoomForShared bs := by
  obtain ⟨records, behind, hrecords, htable⟩ := parseMetadataBlob_records h
  have hsame : ∀ {records' nodes' behind'},
      parseBlobRecords defaultInlineDataMaxBytes bs = (.ok (records', nodes'), behind') →
      records' = records ∧ behind' = behind := by
    intro records' nodes' behind' h'
    rw [hrecords] at h'
    obtain ⟨hok, rfl⟩ := Prod.mk.inj h'
    exact ⟨(Prod.mk.inj (Except.ok.inj hok)).1.symm, rfl⟩
  constructor
  · intro hresolved records' nodes' behind' h'
    obtain ⟨rfl, rfl⟩ := hsame h'
    rcases parseSharedTable_eq_ok.mp htable with ⟨hroom, -⟩ | ⟨-, hinodes, -⟩
    · exact Or.inl hroom
    · exact Or.inr (hinodes ▸ hresolved.none_left)
  · intro hroom
    obtain ⟨-, -, hbounded, -⟩ := parseMetadataBlob_bounded h
    have hall : List.Forall₂ (Resolves (sharedTable defaultInlineDataMaxBytes behind)) records
        blob.inodes := by
      rcases parseSharedTable_eq_ok.mp htable with ⟨-, table, htable, hall⟩ | ⟨hshort, hinodes, -⟩
      · have hread : sharedTable defaultInlineDataMaxBytes behind = table := by
          rw [sharedTable, htable]
        rw [hread]
        exact hall.imp fun _ _ => resolveSharedInline_eq_ok.mp
      · rw [hinodes]
        have hplain := (hroom _ _ _ hrecords).resolve_left (Nat.not_le_of_lt hshort)
        exact List.forall₂_same.mpr fun record hrecord => resolves_self (hplain record hrecord)
    refine ⟨fun inode hinode => ?_, fun inode hinode => (hbounded inode hinode).inline, ?_⟩
    · obtain ⟨record, -, hresolves⟩ := exists_mem_of_forall₂ hall inode hinode
      exact hresolves.not_shared
    · intro records' nodes' behind' h'
      obtain ⟨rfl, rfl⟩ := hsame h'
      exact hall

namespace Stored

/-- One regular file whose content is the first entry of the table. -/
def sharedFile : Bytes :=
  leBytes 4 1 ++ (leBytes 8 1 ++ leBytes 4 0o100644 ++ leBytes 4 0 ++ leBytes 4 0 ++ leBytes 8 0
    ++ leBytes 8 0 ++ leBytes 4 1 ++ [inodeFlagInlineData ||| inodeFlagSharedInline] ++ leBytes 4 0)
    ++ leBytes 4 0

/-- A table of one entry. -/
def sharedEntry : Bytes := leBytes 4 1 ++ leBytes 4 2 ++ [0x68, 0x69]

end Stored

open LimniFS.Stored

/-- The file with its table. -/
theorem shared_inline_resolved_iff_entry :
    ∃ blob rest, parseMetadataBlob (sharedFile ++ sharedEntry) = (.ok blob, rest) ∧
      (SharesResolved (sharedFile ++ sharedEntry) blob ↔
        RoomForShared (sharedFile ++ sharedEntry)) := by
  rcases hparse : parseMetadataBlob (sharedFile ++ sharedEntry) with ⟨e | blob, rest⟩
  · have hok : (parseMetadataBlob (sharedFile ++ sharedEntry)).1.toOption.isSome := by
      decide +kernel
    rw [hparse] at hok
    cases hok
  · exact ⟨blob, rest, rfl, shared_inline_resolved_iff hparse⟩

/-- **Without its table the file is accepted, and its index stays.** -/
theorem shared_inline_left :
    ∃ blob, parseMetadataBlob sharedFile = (.ok blob, []) ∧
      ¬ SharesResolved sharedFile blob := by
  refine ⟨⟨[⟨1, 0o100644, 0, 0, 0, 0, 1, none, [], .sharedInline 0⟩], []⟩, by decide +kernel, ?_⟩
  intro h
  exact absurd (h.none_left _ List.mem_cons_self) (by decide)

end LimniFS
