/-
What the writer's tree holds.

Inode numbers say when an entry came, not what it is.  `contents` is the writer's tree
with every number exchanged for what its inode holds, or will hold once the staged files
are stored.  A call that succeeds puts what it brings into the contents at its name, and
what that is depends on the call alone (`StreamCall.leaf`): the same calls do the same to
the same contents, whatever numbers they get.

`Live` is what every call keeps: the names are in order, no number is given twice, and
every entry of the tree has its inode.
-/
import LimniFS.StreamTree
import Mathlib.Data.List.ModifyLast

namespace LimniFS

open Lib

/-! ### Contents -/

/-- What an inode holds, without its number. -/
@[ext]
structure Payload where
  mode : Nat
  uid : Nat
  gid : Nat
  mtimeNs : Nat
  xattrs : List XAttr
  content : PendingContent
  deriving DecidableEq

def EntryMeta.payload (info : EntryMeta) (kind : Nat) (xattrs : List XAttr)
    (content : PendingContent) : Payload :=
  ⟨info.mode kind, info.uid, info.gid, info.mtimeNs, xattrs, content⟩

def PendingInode.payload (inode : PendingInode) : Payload :=
  ⟨inode.mode, inode.uid, inode.gid, inode.mtimeNs, inode.xattrs, inode.content⟩

def StreamLeaf.map {ι κ : Type} (f : ι → κ) : StreamLeaf ι → StreamLeaf κ
  | .file inode => .file (f inode)
  | .symlink inode => .symlink (f inode)
  | .deferredLink target => .deferredLink target

section

variable (env : WriterEnv) (codecs : StreamCodecs)

/-- A file that is stored by its call. -/
def storedPayload (info : EntryMeta) (xattrs : List XAttr) (chunks : List Bytes) : Payload :=
  let totalLen := (chunks.map List.length).sum
  if totalLen ≤ codecs.inlineThreshold then info.payload sIfreg xattrs (.inline chunks.flatten)
  else info.payload sIfreg [] (.dropBacked totalLen (slicesFrom env.H 0 chunks))

/-- A file that is stored by `finish`. -/
def StagedEntry.payload (entry : StagedEntry) : Payload :=
  if entry.data.length ≤ codecs.inlineThreshold then
    entry.info.payload sIfreg entry.xattrs (.inline entry.data)
  else
    entry.info.payload sIfreg entry.xattrs (.dropBacked entry.data.length
      (slicesFrom env.H 0 ((codecs.chunker.chunkSlice env.threads entry.data).getD [])))

namespace StreamWriter

variable (w : StreamWriter)

/-- The numbers that are given, each with what it stands for. -/
def held : List (Nat × Payload) :=
  w.ctx.inodes.map (fun inode => (inode.number, inode.payload))
    ++ w.staged.map (fun entry => (entry.inodeNumber, entry.payload env codecs))

def contents : StreamDir (Option Payload) :=
  w.tree.map (StreamLeaf.map ((w.held env codecs).lookup ·))

end StreamWriter

/-- What a call brings, if it brings something that is not a directory. -/
def StreamCall.leaf : StreamCall → Option (StreamLeaf (Option Payload))
  | .addFile _ info xattrs reader =>
    match toWireXattrs xattrs, codecs.chunker.scalar.chunkReader reader with
    | .ok wire, some (.ok chunks) => some (.file (some (storedPayload env codecs info wire chunks)))
    | _, _ => none
  | .stageFile name info xattrs data =>
    match toWireXattrs xattrs with
    | .ok wire =>
      some (.file (some (StagedEntry.payload env codecs ⟨name, info, wire, 0, data⟩)))
    | .error _ => none
  | .addHardlink _ target => some (.deferredLink target)
  | .addSymlink _ target info => some (.symlink (some (info.payload sIflnk [] (.symlink target))))
  | .addDir _ _ => none

end

def StreamCall.name : StreamCall → Bytes
  | .addFile name _ _ _ => name
  | .stageFile name _ _ _ => name
  | .addHardlink name _ => name
  | .addSymlink name _ _ => name
  | .addDir name _ => name

/-! ### The invariant -/

def StreamLeaf.number : StreamLeaf Nat → Option Nat
  | .file inode => some inode
  | .symlink inode => some inode
  | .deferredLink _ => none

/-- Files and links; directories have no payload before `finish`. -/
def Payload.Plain (p : Payload) : Prop := ∀ entries, p.content ≠ .directory entries

structure Live (env : WriterEnv) (codecs : StreamCodecs) (w : StreamWriter) : Prop where
  sorted : w.tree.Sorted
  nodup : ((w.held env codecs).map Prod.fst).Nodup
  below : ∀ n ∈ (w.held env codecs).map Prod.fst, n < w.ctx.nextInode
  wired : ∀ leaf ∈ w.tree.leaves, ∀ n, leaf.number = some n →
    n ∈ (w.held env codecs).map Prod.fst
  plain : ∀ x ∈ w.held env codecs, x.2.Plain
  xattrs : ∀ n, w.ctx.inodeXattrs n = none

/-- One more number was given. -/
structure Gains (env : WriterEnv) (codecs : StreamCodecs) (w w' : StreamWriter) (p : Payload) :
    Prop where
  held : ∃ l₁ l₂, w.held env codecs = l₁ ++ l₂ ∧
    w'.held env codecs = l₁ ++ (w.ctx.nextInode, p) :: l₂
  plain : p.Plain
  next : w'.ctx.nextInode = w.ctx.nextInode + 1
  xattrs : w'.ctx.inodeXattrs = w.ctx.inodeXattrs

section

variable {env : WriterEnv} {codecs : StreamCodecs} {w w' : StreamWriter}

theorem lookup_mid_self {l₁ l₂ : List (Nat × Payload)} {n : Nat} {p : Payload}
    (h : n ∉ l₁.map Prod.fst) : (l₁ ++ (n, p) :: l₂).lookup n = some p := by
  have hnone : l₁.lookup n = none := by
    rw [List.lookup_eq_none_iff]
    intro q hq
    exact bne_iff_ne.mpr fun heq => h (heq ▸ List.mem_map_of_mem hq)
  rw [List.lookup_append, hnone, List.lookup_cons_self]
  rfl

theorem lookup_mid_ne {l₁ l₂ : List (Nat × Payload)} {n m : Nat} {p : Payload} (h : m ≠ n) :
    (l₁ ++ (n, p) :: l₂).lookup m = (l₁ ++ l₂).lookup m := by
  rw [List.lookup_append, List.lookup_append, List.lookup_cons, beq_eq_false_iff_ne.mpr h]

theorem Gains.lookup_old {p : Payload} (h : Gains env codecs w w' p) {n : Nat}
    (hn : n ≠ w.ctx.nextInode) :
    (w'.held env codecs).lookup n = (w.held env codecs).lookup n := by
  obtain ⟨l₁, l₂, hold, hnew⟩ := h.held
  rw [hold, hnew, lookup_mid_ne hn]

theorem Live.fresh (h : Live env codecs w) : w.ctx.nextInode ∉ (w.held env codecs).map Prod.fst :=
  fun hmem => Nat.lt_irrefl _ (h.below _ hmem)

theorem Gains.lookup_new {p : Payload} (h : Gains env codecs w w' p) (hlive : Live env codecs w) :
    (w'.held env codecs).lookup w.ctx.nextInode = some p := by
  obtain ⟨l₁, l₂, hold, hnew⟩ := h.held
  have hfresh := hlive.fresh
  rw [hold, List.map_append] at hfresh
  rw [hnew, lookup_mid_self fun hmem => hfresh (List.mem_append_left _ hmem)]

theorem Gains.mem {p : Payload} (h : Gains env codecs w w' p) {n : Nat} :
    n ∈ (w'.held env codecs).map Prod.fst ↔
      n = w.ctx.nextInode ∨ n ∈ (w.held env codecs).map Prod.fst := by
  obtain ⟨l₁, l₂, hold, hnew⟩ := h.held
  rw [hold, hnew, List.map_append, List.map_append, List.map_cons, List.mem_append,
    List.mem_append, List.mem_cons]
  exact or_left_comm

theorem Gains.nodup {p : Payload} (h : Gains env codecs w w' p) (hlive : Live env codecs w) :
    ((w'.held env codecs).map Prod.fst).Nodup := by
  obtain ⟨l₁, l₂, hold, hnew⟩ := h.held
  have hnodup := hlive.nodup
  have hfresh := hlive.fresh
  rw [hold, List.map_append] at hnodup hfresh
  rw [hnew, List.map_append, List.map_cons]
  exact List.nodup_middle.mpr (List.nodup_cons.mpr ⟨hfresh, hnodup⟩)

theorem Gains.map_eq {p : Payload} (h : Gains env codecs w w' p) (hlive : Live env codecs w)
    {tree : StreamDir Nat} (htree : ∀ leaf ∈ tree.leaves, leaf ∈ w.tree.leaves) :
    tree.map (StreamLeaf.map ((w'.held env codecs).lookup ·))
      = tree.map (StreamLeaf.map ((w.held env codecs).lookup ·)) := by
  refine NameForest.map_congr tree fun leaf hleaf => ?_
  have hold : ∀ n, leaf.number = some n →
      (w'.held env codecs).lookup n = (w.held env codecs).lookup n := fun n hn =>
    h.lookup_old fun heq => hlive.fresh (heq ▸ hlive.wired leaf (htree leaf hleaf) n hn)
  cases leaf with
  | file n => exact congrArg StreamLeaf.file (hold n rfl)
  | symlink n => exact congrArg StreamLeaf.symlink (hold n rfl)
  | deferredLink target => rfl

theorem contents_descend (w : StreamWriter) (name : Bytes) :
    descend name (w.contents env codecs)
      = ((descend name w.tree).1.map (StreamLeaf.map ((w.held env codecs).lookup ·)),
        (descend name w.tree).2) :=
  descend_map name w.tree _

/-- **An entry with a number of its own**: the invariant is kept, and the contents have what the
number stands for in its place. -/
theorem live_gain {p : Payload} {name : Bytes} {slot : Slot} {leaf : StreamLeaf Nat}
    (hlive : Live env codecs w) (h : Gains env codecs w w' p)
    (htree : w'.tree = slot.put (.leaf leaf) (descend name w.tree).1)
    (hleaf : leaf.number = some w.ctx.nextInode) :
    Live env codecs w' ∧
      w'.contents env codecs
        = slot.put (.leaf (leaf.map fun _ => some p)) (descend name (w.contents env codecs)).1 := by
  constructor
  · constructor
    · rw [htree]
      exact sorted_put trivial (sorted_descend name w.tree hlive.sorted)
    · exact h.nodup hlive
    · intro n hn
      rw [h.next]
      rcases h.mem.mp hn with rfl | hn
      · exact Nat.lt_succ_self _
      · exact Nat.lt_succ_of_lt (hlive.below n hn)
    · intro other hother n hn
      rw [htree] at hother
      rw [h.mem]
      rcases mem_leaves_put hother with hother | hother
      · cases List.mem_singleton.mp hother
        rw [hleaf] at hn
        exact .inl (Option.some.inj hn).symm
      · exact .inr (hlive.wired other (mem_leaves_descend name w.tree hother) n hn)
    · intro x hx
      obtain ⟨l₁, l₂, hold, hnew⟩ := h.held
      rw [hnew, List.mem_append, List.mem_cons] at hx
      have hplain := hlive.plain
      rw [hold] at hplain
      rcases hx with hx | rfl | hx
      · exact hplain x (List.mem_append_left _ hx)
      · exact h.plain
      · exact hplain x (List.mem_append_right _ hx)
    · intro n
      rw [h.xattrs]
      exact hlive.xattrs n
  · have hnew : leaf.map ((w'.held env codecs).lookup ·) = leaf.map fun _ => some p := by
      have hlookup := h.lookup_new hlive
      cases leaf with
      | file n =>
          cases hleaf
          exact congrArg StreamLeaf.file hlookup
      | symlink n =>
          cases hleaf
          exact congrArg StreamLeaf.symlink hlookup
      | deferredLink target => rfl
    rw [StreamWriter.contents, htree, ← Slot.put_map, NameTree.map, hnew, contents_descend,
      h.map_eq hlive fun other hother => mem_leaves_descend name w.tree hother]

theorem live_tree {tree : StreamDir Nat} (hlive : Live env codecs w) (hsorted : tree.Sorted)
    (hleaves : ∀ leaf ∈ tree.leaves, leaf ∈ w.tree.leaves ∨ leaf.number = none) :
    Live env codecs { w with tree := tree } where
  sorted := hsorted
  nodup := hlive.nodup
  below := hlive.below
  wired := by
    intro leaf hleaf n hn
    rcases hleaves leaf hleaf with hleaf | hnone
    · exact hlive.wired leaf hleaf n hn
    · rw [hnone] at hn
      cases hn
  plain := hlive.plain
  xattrs := hlive.xattrs

/-! ### The calls -/

theorem mergeDrops_eq (env : WriterEnv) : ∀ (raws : List RawDrop) (s : WriterState),
    ∃ drops index samples, raws.foldl (mergeDrop env) s
      = { s with drops := drops, dropIndex := index, dictSamplesByClass := samples } := by
  intro raws
  induction raws with
  | nil =>
      intro s
      exact ⟨s.drops, s.dropIndex, s.dictSamplesByClass, rfl⟩
  | cons r rest ih =>
      intro s
      obtain ⟨drops, index, samples, hrest⟩ := ih (mergeDrop env s r)
      refine ⟨drops, index, samples, ?_⟩
      rw [List.foldl_cons, hrest]
      unfold mergeDrop
      split <;> rfl

theorem storedPayload_plain (info : EntryMeta) (wire : List XAttr) (chunks : List Bytes) :
    (storedPayload env codecs info wire chunks).Plain := by
  unfold storedPayload
  simp only
  split <;> exact nofun

theorem StagedEntry.payload_plain (entry : StagedEntry) : (entry.payload env codecs).Plain := by
  unfold StagedEntry.payload
  split <;> exact nofun

/-- A file that is stored becomes the last inode. -/
theorem storeChunks_inode (name : Bytes) (info : EntryMeta) (number : Nat) (wire : List XAttr)
    (chunks : List Bytes) (s : WriterState) :
    ∃ inode, (storeChunks env codecs name info number wire chunks s).inodes = s.inodes ++ [inode] ∧
      inode.number = number ∧ inode.payload = storedPayload env codecs info wire chunks ∧
      (storeChunks env codecs name info number wire chunks s).nextInode = s.nextInode ∧
      (storeChunks env codecs name info number wire chunks s).inodeXattrs = s.inodeXattrs := by
  unfold storeChunks storedPayload
  by_cases hlen : (chunks.map List.length).sum ≤ codecs.inlineThreshold
  · simp only [if_pos hlen]
    exact ⟨_, rfl, rfl, rfl, rfl, rfl⟩
  · simp only [if_neg hlen]
    obtain ⟨drops, index, samples, hmerge⟩ := mergeDrops_eq env
      (chunkedResult env codecs chunks).drops { s with fileCount := s.fileCount + 1 }
    unfold patchFileLen mergeChunkedFile addInode
    rw [hmerge]
    simp only [List.modifyLast_concat]
    exact ⟨_, rfl, rfl, rfl, trivial, trivial⟩

section

variable {name : Bytes} {info : EntryMeta} {xattrs : List (Bytes × Bytes)} {slot : Slot}
  {wire : List XAttr}

theorem addFile_gains {chunks : List Bytes} :
    Gains env codecs w
      { w.withParents name with
        ctx := storeChunks env codecs name info w.ctx.nextInode wire chunks
          (openedState name info w.ctx)
        tree := slot.put (.leaf (.file w.ctx.nextInode)) (newSlot name w.tree).1 }
      (storedPayload env codecs info wire chunks) := by
  obtain ⟨inode, hinodes, hnumber, hpayload, hnext, hxattrs⟩ := storeChunks_inode
    name info w.ctx.nextInode wire chunks (openedState name info w.ctx)
  refine ⟨⟨_, _, rfl, ?_⟩, storedPayload_plain _ _ _, hnext, hxattrs⟩
  rw [StreamWriter.held, hinodes, List.map_append, List.map_singleton, hnumber, hpayload,
    List.append_assoc]
  rfl

theorem stageFile_gains {data : Bytes} :
    Gains env codecs w
      { w.withStagedSlot name slot with
        staged := w.staged ++ [⟨name, info, wire, w.ctx.nextInode, data⟩] }
      (StagedEntry.payload env codecs ⟨name, info, wire, 0, data⟩) := by
  refine ⟨⟨_, [], (List.append_nil _).symm, ?_⟩, StagedEntry.payload_plain _, rfl, rfl⟩
  rw [StreamWriter.held, List.map_append, ← List.append_assoc]
  rfl

theorem addSymlink_gains {target : Bytes} :
    Gains env codecs w
      { w with
        ctx := addInode w.ctx.allocInode (info.inode sIflnk w.ctx.nextInode [] (.symlink target))
        tree := slot.put (.leaf (.symlink w.ctx.nextInode)) (newSlot name w.tree).1 }
      (info.payload sIflnk [] (.symlink target)) := by
  refine ⟨⟨_, _, rfl, ?_⟩, nofun, rfl, rfl⟩
  rw [StreamWriter.held, addInode, List.map_append, List.append_assoc]
  rfl

end

/-- What a call that succeeds and brings no directory does. -/
structure Puts (env : WriterEnv) (codecs : StreamCodecs) (call : StreamCall) (w w' : StreamWriter) :
    Prop where
  live : Live env codecs w'
  contents : ∃ slot leaf, (newSlot call.name w.tree).2 = .ok slot ∧
    call.leaf env codecs = some leaf ∧
    w'.contents env codecs = slot.put (.leaf leaf) (descend call.name (w.contents env codecs)).1

theorem puts_of_gain {call : StreamCall} {p : Payload} {slot : Slot} {leaf : StreamLeaf Nat}
    (hlive : Live env codecs w) (h : Gains env codecs w w' p)
    (hslot : (newSlot call.name w.tree).2 = .ok slot)
    (htree : w'.tree = slot.put (.leaf leaf) (newSlot call.name w.tree).1)
    (hnumber : leaf.number = some w.ctx.nextInode)
    (hleaf : call.leaf env codecs = some (leaf.map fun _ => some p)) :
    Puts env codecs call w w' := by
  rw [newSlot_fst] at htree
  obtain ⟨hlive', hcontents⟩ := live_gain hlive h htree hnumber
  exact ⟨hlive', slot, _, hslot, hleaf, hcontents⟩

theorem addFile_puts {name : Bytes} {info : EntryMeta} {xattrs : List (Bytes × Bytes)}
    {reader : List ReadResult} (hlive : Live env codecs w)
    (hrun : w.addFile env codecs name info xattrs reader = some (w', .ok ())) :
    Puts env codecs (.addFile name info xattrs reader) w w' := by
  have hadded := addFile_added env codecs w name info xattrs reader
  rw [hrun] at hadded
  cases hadded with
  | stored hslot hwire hread =>
      refine puts_of_gain hlive addFile_gains hslot rfl rfl ?_
      rw [StreamCall.leaf, hwire, hread]
      rfl

theorem stageFile_puts {name : Bytes} {info : EntryMeta} {xattrs : List (Bytes × Bytes)}
    {data : Bytes} (hlive : Live env codecs w)
    (hrun : w.stageFile name info xattrs data = (w', .ok ())) :
    Puts env codecs (.stageFile name info xattrs data) w w' := by
  cases hslot : (newSlot name w.tree).2 with
  | error e =>
      rw [stageFile_refused hslot] at hrun
      cases hrun
  | ok slot =>
      cases hwire : toWireXattrs xattrs with
      | error e =>
          rw [stageFile_unrepresentable hslot hwire] at hrun
          cases hrun
      | ok wire =>
          rw [stageFile_staged hslot hwire] at hrun
          cases hrun
          refine puts_of_gain hlive stageFile_gains hslot rfl rfl ?_
          rw [StreamCall.leaf, hwire]
          rfl

theorem addSymlink_puts {name target : Bytes} {info : EntryMeta} (hlive : Live env codecs w)
    (hrun : w.addSymlink name target info = (w', .ok ())) :
    Puts env codecs (.addSymlink name target info) w w' := by
  cases hslot : (newSlot name w.tree).2 with
  | error e =>
      rw [addSymlink_refused hslot] at hrun
      cases hrun
  | ok slot =>
      rw [addSymlink_added hslot] at hrun
      cases hrun
      exact puts_of_gain hlive addSymlink_gains hslot rfl rfl rfl

theorem addHardlink_puts {name target : Bytes} (hlive : Live env codecs w)
    (hrun : w.addHardlink name target = (w', .ok ())) :
    Puts env codecs (.addHardlink name target) w w' := by
  cases hslot : (newSlot name w.tree).2 with
  | error e =>
      rw [addHardlink_refused hslot] at hrun
      cases hrun
  | ok slot =>
      rw [addHardlink_added hslot] at hrun
      cases hrun
      refine ⟨live_tree hlive ?_ ?_, slot, _, hslot, rfl, ?_⟩
      · rw [newSlot_fst]
        exact sorted_put trivial (sorted_descend name w.tree hlive.sorted)
      · intro leaf hleaf
        rw [newSlot_fst] at hleaf
        rcases mem_leaves_put hleaf with hleaf | hleaf
        · cases List.mem_singleton.mp hleaf
          exact .inr rfl
        · exact .inl (mem_leaves_descend name w.tree hleaf)
      · rw [contents_descend, newSlot_fst]
        exact (Slot.put_map _ _ _).symm

theorem puts_of_run {call : StreamCall} (hlive : Live env codecs w)
    (hrun : call.run env codecs w = some (w', .ok ())) (hdir : ∀ name info, call ≠ .addDir name info) :
    Puts env codecs call w w' := by
  cases call with
  | addFile name info xattrs reader => exact addFile_puts hlive hrun
  | stageFile name info xattrs data => exact stageFile_puts hlive (Option.some.inj hrun)
  | addDir name info => exact absurd rfl (hdir name info)
  | addHardlink name target => exact addHardlink_puts hlive (Option.some.inj hrun)
  | addSymlink name target info => exact addSymlink_puts hlive (Option.some.inj hrun)

/-- A directory is put or stamped in the contents as it is in the tree. -/
theorem addDir_contents {name : Bytes} {info : EntryMeta} {result : Except WriteError Unit}
    (hlive : Live env codecs w) (hrun : w.addDir name info = (w', result))
    (hroot : name ≠ ascii "/") :
    Live env codecs w' ∧
      placeDir name info (w.contents env codecs) = (w'.contents env codecs, result) := by
  unfold StreamWriter.addDir at hrun
  rw [if_neg hroot] at hrun
  cases hrun
  have hplaced := placeDir_placed name info w.tree
  exact ⟨live_tree hlive (hplaced.sorted hlive.sorted) fun leaf hleaf =>
    .inl (hplaced.mem_leaves hleaf), placeDir_map _⟩

theorem addDir_frame {name : Bytes} {info : EntryMeta} {result : Except WriteError Unit}
    (hrun : w.addDir name info = (w', result)) : w'.ctx = w.ctx ∧ w'.staged = w.staged := by
  unfold StreamWriter.addDir at hrun
  split at hrun
  · obtain ⟨rfl, -⟩ := Prod.mk.inj hrun
    exact ⟨rfl, rfl⟩
  · obtain ⟨rfl, -⟩ := Prod.mk.inj hrun
    exact ⟨rfl, rfl⟩

theorem addDir_root {name : Bytes} {info : EntryMeta} (hroot : name = ascii "/") :
    w.addDir name info = (w, .ok ()) := if_pos hroot

theorem live_new (env : WriterEnv) {config : WriteConfig} {started : StreamCodecs × StreamWriter}
    (hnew : StreamWriter.new config = .ok started) :
    Live env started.1 started.2 ∧ started.2.contents env started.1 = .nil ∧
      started.2.staged = [] := by
  obtain ⟨chunker, -, hnew⟩ := except_bind_eq_ok.mp hnew
  obtain ⟨codecs, -, hnew⟩ := except_bind_eq_ok.mp hnew
  cases hnew
  exact ⟨⟨trivial, List.nodup_nil, nofun, nofun, nofun, fun _ => rfl⟩, rfl, rfl⟩

end

end LimniFS
