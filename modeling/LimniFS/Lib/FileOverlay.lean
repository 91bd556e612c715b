/-
Files written over a tree.

Names are removed from a tree, and then files are written over it.  `Overlaid` says what every path
leads to after any number of writes to different paths, and `overlaid_shows_iff` when the result is
what it should be: the new contents at their paths, directories above them, and elsewhere what was
to be kept.
-/
import LimniFS.Lib.FileTree

namespace Lib

variable {ν ο β : Type}

namespace FileTree

/-! ### Writes over a tree -/

section

variable [DecidableEq ν] [DecidableEq ο] (fresh : List ν → ο)

/-- The file that a write to the path goes to. -/
def objectAt (t : FileTree ν ο β) (path : List ν) : ο :=
  match t.node path with
  | some (.file object) => object
  | _ => fresh path

def writeAll (t : FileTree ν ο β) (writes : List (List ν × β)) : Option (FileTree ν ο β) :=
  writes.foldlM (fun t w => t.write w.1 (fresh w.1) w.2) t

/-- After some writes to different paths. -/
structure Overlaid (base : FileTree ν ο β) (done : List (List ν × β)) (t : FileTree ν ο β) : Prop
    where
  rooted : t.Rooted
  node : ∀ q, t.node q = if q ∈ done.map Prod.fst then some (.file (base.objectAt fresh q))
    else if ∃ w ∈ done, q <+: w.1 then some .dir else base.node q
  content : t.content =
    done.foldl (fun c w => Function.update c (base.objectAt fresh w.1) w.2) base.content
  /-- Nothing but directories was above them. -/
  above : ∀ w ∈ done, ∀ q, q <+: w.1 → q ≠ w.1 →
    base.node q = none ∨ base.node q = some .dir
  there : ∀ w ∈ done, base.node w.1 = none ∨ ∃ object, base.node w.1 = some (.file object)

variable {fresh} {base t t' : FileTree ν ο β} {done : List (List ν × β)}

theorem overlaid_nil (hrooted : base.Rooted) : Overlaid fresh base [] base where
  rooted := hrooted
  node q := by
    rw [if_neg (by simp), if_neg (by simp)]
  content := rfl
  above w hw := absurd hw List.not_mem_nil
  there w hw := absurd hw List.not_mem_nil

theorem Overlaid.base_node (h : Overlaid fresh base done t) {path : List ν}
    (hnew : path ∉ done.map Prod.fst) (hnode : t.node path ≠ some .dir) :
    base.node path = t.node path := by
  rw [h.node, if_neg hnew] at hnode ⊢
  by_cases hex : ∃ w ∈ done, path <+: w.1
  · rw [if_pos hex] at hnode
    exact absurd rfl hnode
  · rw [if_neg hex]

theorem Overlaid.above_free (h : Overlaid fresh base done t) {q : List ν}
    (hnode : t.node q = none ∨ t.node q = some .dir) :
    q ∉ done.map Prod.fst ∧ (base.node q = none ∨ base.node q = some .dir) := by
  have hq : q ∉ done.map Prod.fst := by
    intro hmem
    rw [h.node, if_pos hmem] at hnode
    rcases hnode with hnode | hnode <;> cases hnode
  refine ⟨hq, ?_⟩
  rw [h.node, if_neg hq] at hnode
  by_cases hex : ∃ w ∈ done, q <+: w.1
  · obtain ⟨w, hw, hpre⟩ := hex
    exact h.above w hw q hpre fun heq => hq (heq ▸ List.mem_map_of_mem hw)
  · rwa [if_neg hex] at hnode

/-- **One more write.** -/
theorem Overlaid.write (h : Overlaid fresh base done t) {path : List ν} {data : β}
    (hnew : path ∉ done.map Prod.fst) (hwrite : t.write path (fresh path) data = some t') :
    Overlaid fresh base (done ++ [(path, data)]) t' := by
  -- In both cases directories are above the path, and the file at it is the same.
  have hcases : base.node path = t.node path ∧
      (t.node path = none ∨ ∃ object, t.node path = some (.file object)) ∧
      (∀ q, q <+: path → q ≠ path → t.node q = none ∨ t.node q = some .dir) ∧
      (∀ q, t'.node q = if q = path then some (.file (base.objectAt fresh path))
        else if q <+: path then some .dir else t.node q) ∧
      t'.content = Function.update t.content (base.objectAt fresh path) data := by
    rcases write_some hwrite with ⟨object, hnode, rfl⟩ | ⟨mid, hplaced, rfl⟩
    · have hbase := h.base_node hnew (by rw [hnode]; exact fun h => (nomatch h))
      have hobject : base.objectAt fresh path = object := by
        rw [objectAt, hbase, hnode]
      have habove : ∀ q, q <+: path → q ≠ path → t.node q = some .dir := fun q hq hne =>
        h.rooted.above (by rw [hnode]; rfl) hq hne
      refine ⟨hbase, Or.inr ⟨object, hnode⟩, fun q hq hne => Or.inr (habove q hq hne),
        fun q => ?_, by rw [hobject]⟩
      by_cases heq : q = path
      · rw [if_pos heq, heq, hobject]
        exact hnode
      · rw [if_neg heq]
        by_cases hpre : q <+: path
        · rw [if_pos hpre]
          exact habove q hpre heq
        · rw [if_neg hpre]
    · have hbase := h.base_node hnew (by rw [hplaced.free]; exact fun h => (nomatch h))
      have hobject : base.objectAt fresh path = fresh path := by
        rw [objectAt, hbase, hplaced.free]
      refine ⟨hbase, Or.inl hplaced.free, hplaced.above, fun q => ?_, ?_⟩
      · rw [hobject]
        exact hplaced.node q
      · rw [hobject, ← hplaced.content]
  obtain ⟨hbase, hthere, habove, hnode, hcontent⟩ := hcases
  refine ⟨h.rooted.write hwrite, fun q => ?_, ?_, ?_, ?_⟩
  · rw [hnode]
    simp only [List.map_append, List.map_cons, List.map_nil, List.mem_append, List.mem_singleton]
    by_cases heq : q = path
    · rw [if_pos heq, if_pos (Or.inr heq), heq]
    · rw [if_neg heq]
      by_cases hpre : q <+: path
      · have hq := (h.above_free (habove q hpre heq)).1
        rw [if_pos hpre, if_neg (not_or.mpr ⟨hq, heq⟩),
          if_pos ⟨(path, data), List.mem_append_right _ List.mem_cons_self, hpre⟩]
      · rw [if_neg hpre, h.node]
        simp only [heq, or_false]
        have hiff : (∃ w ∈ done, q <+: w.1) ↔ ∃ w ∈ done ++ [(path, data)], q <+: w.1 := by
          constructor
          · rintro ⟨w, hw, hq⟩
            exact ⟨w, List.mem_append_left _ hw, hq⟩
          · rintro ⟨w, hw, hq⟩
            rcases List.mem_append.mp hw with hw | hw
            · exact ⟨w, hw, hq⟩
            · rw [List.mem_singleton.mp hw] at hq
              exact absurd hq hpre
        rw [if_congr hiff rfl rfl]
  · rw [hcontent, h.content, List.foldl_append]
    rfl
  · refine List.forall_mem_append.mpr ⟨h.above, List.forall_mem_singleton.mpr fun q hq hne => ?_⟩
    exact (h.above_free (habove q hq hne)).2
  · refine List.forall_mem_append.mpr ⟨h.there, List.forall_mem_singleton.mpr ?_⟩
    rw [hbase]
    exact hthere

theorem Overlaid.writeAll : ∀ {writes done : List (List ν × β)} {t : FileTree ν ο β},
    Overlaid fresh base done t → ((done ++ writes).map Prod.fst).Nodup →
    t.writeAll fresh writes = some t' → Overlaid fresh base (done ++ writes) t' := by
  intro writes
  induction writes with
  | nil =>
      intro done t h _ hrun
      cases hrun
      rwa [List.append_nil]
  | cons w rest ih =>
      intro done t h hnodup hrun
      rw [FileTree.writeAll, List.foldlM_cons, Option.bind_eq_bind, Option.bind_eq_some_iff] at hrun
      obtain ⟨mid, hmid, hrest⟩ := hrun
      have hnew : w.1 ∉ done.map Prod.fst := by
        rw [List.map_append, List.map_cons, List.nodup_append] at hnodup
        exact fun hin => hnodup.2.2 _ hin _ List.mem_cons_self rfl
      rw [List.append_cons]
      exact ih (h.write hnew hmid) (by rwa [← List.append_cons]) hrest

/-! ### What a file holds in the end -/

omit [DecidableEq ν] in
/-- An object no write went to is as it was; any other holds what the last of its writes put
there. -/
theorem foldl_update_cases {ι : Type} [DecidableEq ι] (target : List ν → ι) (o : ι) :
    ∀ (writes : List (List ν × β)) (c : ι → β),
      (writes.foldl (fun c w => Function.update c (target w.1) w.2) c o = c o ∧
          ∀ w ∈ writes, target w.1 ≠ o) ∨
        ∃ w ∈ writes, target w.1 = o ∧
          writes.foldl (fun c w => Function.update c (target w.1) w.2) c o = w.2 := by
  intro writes
  induction writes with
  | nil =>
      intro c
      exact Or.inl ⟨rfl, fun w hw => absurd hw List.not_mem_nil⟩
  | cons w rest ih =>
      intro c
      rw [List.foldl_cons]
      rcases ih (Function.update c (target w.1) w.2) with ⟨hsame, hrest⟩ | ⟨w', hw', htarget, hval⟩
      · rw [hsame]
        by_cases heq : target w.1 = o
        · refine Or.inr ⟨w, List.mem_cons_self, heq, ?_⟩
          rw [heq, Function.update_self]
        · refine Or.inl ⟨Function.update_of_ne (Ne.symm heq) .., ?_⟩
          exact List.forall_mem_cons.mpr ⟨heq, hrest⟩
      · exact Or.inr ⟨w', List.mem_cons_of_mem _ hw', htarget, hval⟩

/-! ### When the result is what it should be -/

variable (base fresh) (removed kept : List ν → Prop) [DecidablePred kept]
  (writes : List (List ν × β))

/-- What should be shown: a new content where one was written, a directory above it, and elsewhere
what is to be kept. -/
def wanted (q : List ν) : Option (FileEntry β) :=
  match writes.lookup q with
  | some data => some (.file data)
  | none =>
    if ∃ w ∈ writes, q <+: w.1 then some .dir else if kept q then base.shows q else none

/-- When removing and writing leads to what is wanted. -/
structure OverlayFits : Prop where
  /-- No directory is to go, unless a file is written below it. -/
  dirs : ∀ q, base.node q = some .dir → kept q ∨ ∃ w ∈ writes, q <+: w.1
  /-- Of all others, those are to be kept that are not removed. -/
  others : ∀ q, base.node q ≠ none → base.node q ≠ some .dir → (∀ w ∈ writes, ¬ q <+: w.1) →
    (kept q ↔ ¬ removed q)
  /-- Names of one file agree on what it should hold, if one of them is written. -/
  links : ∀ w ∈ writes, ∀ q object, base.node w.1 = some (.file object) → ¬ removed w.1 →
    base.node q = some (.file object) → ¬ removed q →
    (writes.lookup q).getD (base.content object) = w.2

end

/-! ### Every result is judged path by path -/

section

variable [DecidableEq ν] [DecidableEq ο] {fresh : List ν → ο}
  {base mid t : FileTree ν ο β} {removed kept : List ν → Prop} [DecidablePred kept]
  {writes : List (List ν × β)}

omit [DecidableEq ο] [DecidablePred kept] in
theorem lookup_eq_some_of_mem (hnodup : (writes.map Prod.fst).Nodup) {w : List ν × β}
    (hw : w ∈ writes) : writes.lookup w.1 = some w.2 := by
  obtain ⟨before, after, rfl⟩ := List.append_of_mem hw
  refine List.lookup_eq_some_iff.mpr ⟨before, after, rfl, fun p hp => bne_iff_ne.mpr fun heq => ?_⟩
  rw [List.map_append, List.map_cons, List.nodup_append] at hnodup
  exact hnodup.2.2 p.1 (List.mem_map_of_mem hp) w.1 List.mem_cons_self heq.symm

omit [DecidableEq ο] in
theorem lookup_eq_none_iff_keys {q : List ν} :
    writes.lookup q = none ↔ q ∉ writes.map Prod.fst := by
  rw [List.lookup_eq_none_iff, List.mem_map]
  constructor
  · rintro h ⟨w, hw, rfl⟩
    exact bne_iff_ne.mp (h w hw) rfl
  · intro h w hw
    exact bne_iff_ne.mpr fun heq => h ⟨w, hw, heq.symm⟩

omit [DecidableEq ο] in
theorem mem_of_lookup {q : List ν} {data : β} (h : writes.lookup q = some data) :
    (q, data) ∈ writes := by
  obtain ⟨before, after, rfl, -⟩ := List.lookup_eq_some_iff.mp h
  exact List.mem_append_right _ List.mem_cons_self

omit [DecidableEq ο] in
theorem lookup_of_graph (hnodup : (writes.map Prod.fst).Nodup) {found : List ν → Option β}
    (hgraph : ∀ q data, (q, data) ∈ writes ↔ found q = some data) (q : List ν) :
    writes.lookup q = found q :=
  Option.ext fun data => ⟨fun h => (hgraph q data).mp (mem_of_lookup h),
    fun h => lookup_eq_some_of_mem hnodup ((hgraph q data).mpr h)⟩

omit [DecidableEq ν] [DecidableEq ο] in
theorem objectAt_file {q : List ν} {object : ο} (h : mid.node q = some (.file object)) :
    mid.objectAt fresh q = object := by
  rw [objectAt, h]

/-- Names were removed from `base`, which knows none of the objects that are new. -/
structure Removed (base : FileTree ν ο β) (removed : List ν → Prop) (fresh : List ν → ο)
    (mid : FileTree ν ο β) : Prop where
  stays : ∀ q, ¬ removed q → mid.node q = base.node q
  goes : ∀ q, removed q → mid.node q = (base.node q).filter FileNode.isDir
  content : mid.content = base.content
  distinct : Function.Injective fresh
  fresh : ∀ q p, base.node q ≠ some (.file (fresh p))

variable (hmid : Removed base removed fresh mid)

omit [DecidableEq ν] [DecidableEq ο] [DecidablePred kept] in
include hmid in
theorem Removed.file {q : List ν} {object : ο} :
    mid.node q = some (.file object) ↔ base.node q = some (.file object) ∧ ¬ removed q := by
  by_cases hq : removed q
  · rw [hmid.goes q hq]
    refine ⟨fun h => ?_, fun h => absurd hq h.2⟩
    cases (Option.filter_eq_some_iff.mp h).2
  · rw [hmid.stays q hq]
    exact ⟨fun h => ⟨h, hq⟩, And.left⟩

omit [DecidableEq ν] [DecidableEq ο] [DecidablePred kept] in
include hmid in
theorem Removed.dir {q : List ν} : mid.node q = some .dir ↔ base.node q = some .dir := by
  by_cases hq : removed q
  · rw [hmid.goes q hq, Option.filter_eq_some_iff]
    exact ⟨And.left, fun h => ⟨h, rfl⟩⟩
  · rw [hmid.stays q hq]

omit [DecidableEq ν] [DecidableEq ο] [DecidablePred kept] in
include hmid in
theorem Removed.objectAt_inj {p q : List ν} (h : mid.objectAt fresh p = mid.objectAt fresh q) :
    p = q ∨ ∃ object, mid.node p = some (.file object) ∧ mid.node q = some (.file object) := by
  have hcases : ∀ r, mid.objectAt fresh r = fresh r ∨
      ∃ object, mid.node r = some (.file object) ∧ mid.objectAt fresh r = object := by
    intro r
    unfold objectAt
    split
    · next object hobject => exact Or.inr ⟨object, hobject, rfl⟩
    · exact Or.inl rfl
  rcases hcases p with hp | ⟨object, hp, hobject⟩
  · rcases hcases q with hq | ⟨object', hq, hobject'⟩
    · rw [hp, hq] at h
      exact Or.inl (hmid.distinct h)
    · rw [hp, hobject'] at h
      rw [← h] at hq
      exact absurd (hmid.file.mp hq).1 (hmid.fresh q p)
  · rcases hcases q with hq | ⟨object', hq, hobject'⟩
    · rw [hobject, hq] at h
      rw [h] at hp
      exact absurd (hmid.file.mp hp).1 (hmid.fresh p q)
    · rw [hobject, hobject'] at h
      exact Or.inr ⟨object, hp, h ▸ hq⟩

variable (h : Overlaid fresh mid writes t) (hnodup : (writes.map Prod.fst).Nodup)

include h in
theorem Overlaid.shows_written {q : List ν} (hq : q ∈ writes.map Prod.fst) :
    t.shows q = some (.file (t.content (mid.objectAt fresh q))) := by
  rw [shows, h.node, if_pos hq]
  rfl

include h in
theorem Overlaid.shows_above {q : List ν} (hq : q ∉ writes.map Prod.fst)
    (hpre : ∃ w ∈ writes, q <+: w.1) : t.shows q = some .dir := by
  rw [shows, h.node, if_neg hq, if_pos hpre]
  rfl

include h in
theorem Overlaid.node_apart {q : List ν} (hq : q ∉ writes.map Prod.fst)
    (hpre : ¬ ∃ w ∈ writes, q <+: w.1) : t.node q = mid.node q := by
  rw [h.node, if_neg hq, if_neg hpre]

include h in
theorem Overlaid.file_not_above {q : List ν} {object : ο} (hq : q ∉ writes.map Prod.fst)
    (hfile : mid.node q = some (.file object)) : ¬ ∃ w ∈ writes, q <+: w.1 := by
  rintro ⟨w, hw, hpre⟩
  rcases h.above w hw q hpre fun heq => hq (heq ▸ List.mem_map_of_mem hw) with hnone | hdir
  · rw [hnone] at hfile
    cases hfile
  · rw [hdir] at hfile
    cases hfile

include h hmid hnodup in
theorem OverlayFits.of_shows (hshows : ∀ q, t.shows q = base.wanted kept writes q) :
    base.OverlayFits removed kept writes := by
  have hwanted : ∀ {q}, q ∉ writes.map Prod.fst → (¬ ∃ w ∈ writes, q <+: w.1) →
      t.shows q = if kept q then base.shows q else none := by
    intro q hq hpre
    rw [hshows q, wanted, lookup_eq_none_iff_keys.mpr hq]
    exact if_neg hpre
  refine ⟨fun q hdir => ?_, fun q hsome hnotDir hpre => ?_,
    fun w hw q object hw' hwstays hq' hqstays => ?_⟩
  · by_cases hpre : ∃ w ∈ writes, q <+: w.1
    · exact Or.inr hpre
    · have hq : q ∉ writes.map Prod.fst := by
        intro hq
        obtain ⟨w, hw, rfl⟩ := List.mem_map.mp hq
        exact hpre ⟨w, hw, List.prefix_refl _⟩
      refine Or.inl (by_contra fun hnot => ?_)
      have := hwanted hq hpre
      rw [if_neg hnot, shows_eq_none, h.node_apart hq hpre, hmid.dir.mpr hdir] at this
      cases this
  · have hpre : ¬ ∃ w ∈ writes, q <+: w.1 := fun ⟨w, hw, hq⟩ => hpre w hw hq
    have hq : q ∉ writes.map Prod.fst := by
      intro hq
      obtain ⟨w, hw, rfl⟩ := List.mem_map.mp hq
      exact hpre ⟨w, hw, List.prefix_refl _⟩
    have := hwanted hq hpre
    constructor
    · intro hkept hremoved
      rw [if_pos hkept] at this
      have hnone : mid.node q = none := by
        rw [hmid.goes q hremoved, Option.filter_eq_none_iff]
        intro n hn
        cases n with
        | dir => exact absurd hn hnotDir
        | file object => exact Bool.false_ne_true
        | symlink target => exact Bool.false_ne_true
      rw [shows_eq_none.mpr ((h.node_apart hq hpre).trans hnone)] at this
      exact hsome (shows_eq_none.mp this.symm)
    · intro hstays
      by_contra hnot
      rw [if_neg hnot, shows_eq_none, h.node_apart hq hpre, hmid.stays q hstays] at this
      exact hsome this
  · have hwmid := hmid.file.mpr ⟨hw', hwstays⟩
    have hqmid := hmid.file.mpr ⟨hq', hqstays⟩
    have hdata : t.content object = w.2 := by
      have hw1 := h.shows_written (List.mem_map_of_mem hw)
      rw [hshows w.1, wanted, lookup_eq_some_of_mem hnodup hw, objectAt_file hwmid] at hw1
      exact (FileEntry.file.inj (Option.some.inj hw1)).symm
    cases hlookup : writes.lookup q with
    | some data =>
        have hq1 := h.shows_written (List.mem_map_of_mem (mem_of_lookup hlookup))
        rw [hshows q, wanted, hlookup, objectAt_file hqmid] at hq1
        exact (FileEntry.file.inj (Option.some.inj hq1)).trans hdata
    | none =>
        have hq := lookup_eq_none_iff_keys.mp hlookup
        have hpre := h.file_not_above hq hqmid
        have hq1 := hwanted hq hpre
        rw [shows_file ((h.node_apart hq hpre).trans hqmid)] at hq1
        split at hq1
        · rw [shows_file hq'] at hq1
          exact (FileEntry.file.inj (Option.some.inj hq1)).symm.trans hdata
        · cases hq1

include h hmid hnodup in
theorem OverlayFits.shows (hfits : base.OverlayFits removed kept writes) (q : List ν) :
    t.shows q = base.wanted kept writes q := by
  unfold wanted
  cases hlookup : writes.lookup q with
  | some data =>
      have hmem := mem_of_lookup hlookup
      have hq : q ∈ writes.map Prod.fst := List.mem_map_of_mem hmem
      rw [h.shows_written hq, h.content]
      rcases foldl_update_cases (mid.objectAt fresh) (mid.objectAt fresh q) writes mid.content with
        ⟨-, hnone⟩ | ⟨w, hw, htarget, hval⟩
      · exact absurd rfl (hnone (q, data) hmem)
      · rw [hval]
        rcases hmid.objectAt_inj htarget with heq | ⟨object, hwfile, hqfile⟩
        · have := lookup_eq_some_of_mem hnodup hw
          rw [heq, hlookup] at this
          exact congrArg (fun d => some (FileEntry.file d)) (Option.some.inj this).symm
        · obtain ⟨hw', hwstays⟩ := hmid.file.mp hwfile
          obtain ⟨hq', hqstays⟩ := hmid.file.mp hqfile
          have := hfits.links w hw q object hw' hwstays hq' hqstays
          rw [hlookup, Option.getD_some] at this
          rw [this]
  | none =>
      have hq := lookup_eq_none_iff_keys.mp hlookup
      simp only
      by_cases hpre : ∃ w ∈ writes, q <+: w.1
      · rw [if_pos hpre, h.shows_above hq hpre]
      · rw [if_neg hpre]
        have hnot : ∀ w ∈ writes, ¬ q <+: w.1 := fun w hw hw' => hpre ⟨w, hw, hw'⟩
        have hnode := h.node_apart hq hpre
        have hstays : ∀ n, base.node q = some n → n ≠ .dir → ¬ kept q → t.shows q = none := by
          intro n hn hdir hkept
          have hremoved : removed q := by
            by_contra hstays
            exact hkept ((hfits.others q (by rw [hn]; exact Option.some_ne_none n)
              (by rw [hn]; exact fun heq => hdir (Option.some.inj heq)) hnot).mpr hstays)
          rw [shows_eq_none, hnode, hmid.goes q hremoved, hn, Option.filter_some]
          cases n with
          | dir => exact absurd rfl hdir
          | file object => rfl
          | symlink target => rfl
        have hkeeps : ∀ n, base.node q = some n → n ≠ .dir → kept q → mid.node q = some n := by
          intro n hn hdir hkept
          rw [hmid.stays q ((hfits.others q (by rw [hn]; exact Option.some_ne_none n)
            (by rw [hn]; exact fun heq => hdir (Option.some.inj heq)) hnot).mp hkept), hn]
        rcases hbase : base.node q with _ | _ | object | target
        · have hnone : mid.node q = none := by
            by_cases hremoved : removed q
            · rw [hmid.goes q hremoved, hbase]
              rfl
            · rw [hmid.stays q hremoved, hbase]
          rw [shows_eq_none.mpr (hnode.trans hnone), shows_eq_none.mpr hbase, ite_self]
        · rw [if_pos ((hfits.dirs q hbase).resolve_right hpre), shows_eq_dir.mpr hbase,
            shows_eq_dir.mpr (hnode.trans (hmid.dir.mpr hbase))]
        · by_cases hkept : kept q
          · have hqmid := hkeeps _ hbase (by simp) hkept
            obtain ⟨-, hqstays⟩ := hmid.file.mp hqmid
            rw [if_pos hkept, shows_file (hnode.trans hqmid), shows_file hbase, h.content]
            rcases foldl_update_cases (mid.objectAt fresh) object writes mid.content with
              ⟨hsame, -⟩ | ⟨w, hw, htarget, hval⟩
            · rw [hsame, hmid.content]
            · rw [hval]
              have hobject : mid.objectAt fresh w.1 = mid.objectAt fresh q := by
                rw [htarget, objectAt_file hqmid]
              rcases hmid.objectAt_inj hobject with heq | ⟨object', hwfile, hqfile⟩
              · exact absurd (heq ▸ List.mem_map_of_mem hw) hq
              · obtain ⟨hw', hwstays⟩ := hmid.file.mp hwfile
                obtain ⟨hq', -⟩ := hmid.file.mp hqfile
                have := hfits.links w hw q object' hw' hwstays hq' hqstays
                rw [hbase] at hq'
                cases hq'
                rw [hlookup, Option.getD_none] at this
                rw [← this]
          · rw [if_neg hkept, hstays _ hbase (by simp) hkept]
        · by_cases hkept : kept q
          · rw [if_pos hkept, shows_symlink hbase,
              shows_symlink (hnode.trans (hkeeps _ hbase (by simp) hkept))]
          · rw [if_neg hkept, hstays _ hbase (by simp) hkept]

include h hmid hnodup in
/-- **What is shown is what is wanted, exactly if removing and writing fits it.** -/
theorem overlaid_shows_iff :
    (∀ q, t.shows q = base.wanted kept writes q) ↔ base.OverlayFits removed kept writes :=
  ⟨OverlayFits.of_shows hmid h hnodup, OverlayFits.shows hmid h hnodup⟩

end

end FileTree

end Lib
