/-
The survey of a source tree.

The survey asks the file system once about every node; children are surveyed at the same time.  What
is found besides names and contents depends on the machine: times, owners, the numbers of devices and
inodes, the order in which a directory lists its entries.  A metadata policy pins the times and
normalizes owners and modes, and names and attributes are sorted.  So trees that differ in nothing
else are surveyed alike (`surveyNode_same`), up to the numbers of devices and inodes.

Names are made text before they are sorted.  Entries whose names become the same text stay in the
order in which they were listed, so names are asked to be apart.
-/
import LimniFS.HttpLocator
import LimniFS.PipelinedImage

namespace LimniFS

open Lib

/-! ### Metadata policies -/

/-- What the environment says of a variable. -/
inductive EnvVar where
  | notPresent
  | notUnicode
  | present (raw : Bytes)

structure InvalidSourceDateEpoch where
  source : String
  value : Bytes
  deriving DecidableEq

def sourceDateEpochFromEnv : EnvVar → Except InvalidSourceDateEpoch (Option Nat)
  | .notPresent => .ok none
  | .notUnicode => .error ⟨"SOURCE_DATE_EPOCH", ascii "<not valid Unicode>"⟩
  | .present raw =>
    match Numeral.parseWord 10 (2 ^ 64) (trimText raw) with
    | some secs => .ok (some secs)
    | none => .error ⟨"SOURCE_DATE_EPOCH", raw⟩

/-- Seconds as nanoseconds, unless they are too many. -/
def pinOf (source : String) : Option Nat → Except InvalidSourceDateEpoch (Option Nat)
  | none => .ok none
  | some secs =>
    if secs * 1000000000 < 2 ^ 64 then .ok (some (secs * 1000000000))
    else .error ⟨source, Numeral.encode 10 secs⟩

/-- The setting of the configuration comes before the environment. -/
def MetadataPolicy.resolve (sourceDateEpoch : Option Nat) (normalizeMetadata : Bool) (var : EnvVar) :
    Except InvalidSourceDateEpoch MetadataPolicy :=
  match sourceDateEpoch with
  | some secs => (pinOf "source_date_epoch" (some secs)).map (⟨·, normalizeMetadata⟩)
  | none =>
    match sourceDateEpochFromEnv var with
    | .error e => .error e
    | .ok epochSecs => (pinOf "SOURCE_DATE_EPOCH" epochSecs).map (⟨·, normalizeMetadata⟩)

/-! ### What the file system says -/

/-- A time before 1970 and one that cannot be told are no time. -/
structure OsStat where
  mode : Nat
  len : Nat
  mtimeNs : Option Nat
  uid : Nat
  gid : Nat
  dev : Nat
  ino : Nat

def kindOfMode (mode : Nat) : FileKind :=
  let ty := mode &&& sIfmt
  if ty = sIfdir then .directory
  else if ty = sIfreg then .file
  else if ty = sIflnk then .symlink
  else if ty = sIfifo then .fifo
  else if ty = sIfsock then .socket
  else if ty = sIfblk then .blockDevice
  else if ty = sIfchr then .charDevice
  else .unknown

/-- `survey_meta_of`; a time that does not fit is no time. -/
def surveyMetaOf (st : OsStat) : SurveyMeta where
  kind := kindOfMode st.mode
  len := st.len
  mtimeNs := (st.mtimeNs.filter (· < 2 ^ 64)).getD 0
  mode := st.mode
  uid := st.uid
  gid := st.gid
  dev := st.dev
  ino := st.ino
  xattrs := []

/-- An attribute; its value may be gone when it is asked for. -/
structure OsXattr where
  name : Bytes
  value : Option Bytes

def volatileXattrs : List Bytes :=
  ["com.apple.provenance", "com.apple.quarantine", "com.apple.lastuseddate", "com.apple.macl",
    "com.apple.filesec"].map ascii

/-- `TOTAL_CAP` of the attributes of a node. -/
def surveyXattrCap : Nat := 64 * 1024

def keepsXattr (name : Bytes) : Bool :=
  utf8Valid name && !(ascii "system.").isPrefixOf name && !(ascii "security.").isPrefixOf name
    && !(ascii "trusted.").isPrefixOf name && !volatileXattrs.contains name

/-- Attributes up to the first that is over the cap. -/
def takeXattrs : Nat → List OsXattr → List (Bytes × Bytes)
  | _, [] => []
  | total, x :: rest =>
    match x.value with
    | none => takeXattrs total rest
    | some value =>
      if surveyXattrCap < total + (x.name.length + value.length) then []
      else (x.name, value) :: takeXattrs (total + (x.name.length + value.length)) rest

/-- The attributes that are asked for, of those that are listed. -/
def keptXattrs (listed : Option (List OsXattr)) : List OsXattr :=
  (listed.getD []).filter fun x => keepsXattr x.name

def collectXattrs (listed : Option (List OsXattr)) : List (Bytes × Bytes) :=
  takeXattrs 0 ((keptXattrs listed).insertionSort fun x y => x.name ≤ y.name)

mutual

/-- What is found at a path: its status, its attributes, what it links to, and its entries or why
there are none. -/
inductive OsNode where
  | node (stat : Except String OsStat) (xattrs : Option (List OsXattr)) (link : Except String Bytes)
      (refused : Option String) (listing : OsListing)

/-- Entries in the order in which they are listed; some cannot be read. -/
inductive OsListing where
  | nil
  | unread (rest : OsListing)
  | cons (name : Bytes) (child : OsNode) (rest : OsListing)

end

/-- The entries that can be read. -/
def OsListing.entries : OsListing → List (Bytes × OsNode)
  | .nil => []
  | .unread rest => rest.entries
  | .cons name child rest => (name, child) :: rest.entries

/-! ### The survey -/

def childrenOf : List (Bytes × SurveyNode) → SurveyChildren
  | [] => .nil
  | (name, child) :: rest => .cons name child (childrenOf rest)

/-- Names made text, in order. -/
def sortNamed {α : Type} (named : List (Bytes × α)) : List (Bytes × α) :=
  named.insertionSort fun a b => a.1 ≤ b.1

/-- What a node is, besides its children. -/
def metaOf (policy : MetadataPolicy) (st : OsStat) (xattrs : Option (List OsXattr)) : SurveyMeta :=
  let info := policy.apply (surveyMetaOf st)
  if info.kind = .symlink then info else { info with xattrs := collectXattrs xattrs }

/-- A child with its name. -/
def namedChild (child : Bytes × Except WriteStop SurveyNode) : Except WriteStop (Bytes × SurveyNode) :=
  child.2.map fun node => (child.1, node)

/-- How a link is called whose target is not text. -/
def linkTargetText (target : Bytes) : String :=
  "symlink with non-UTF-8 target ("
    ++ (String.fromUTF8? ⟨(fromUtf8Lossy target).toArray⟩).getD "" ++ ")"

section

variable (policy : MetadataPolicy) (sched : Schedule)

mutual

/-- `survey_node`; of the failures of children that are surveyed at the same time one is reported. -/
def surveyNode (path : Path) : OsNode → Except WriteStop SurveyNode
  | .node stat xattrs link refused listing =>
    match stat with
    | .error e => .error (.failed (.io e))
    | .ok st =>
      let info := metaOf policy st xattrs
      if info.kind = .symlink then
        match link with
        | .error e => .error (.failed (.io e))
        | .ok target =>
          if utf8Valid target = true then .ok (.node info .nil (some target))
          else .error (.failed (.unsupportedFileType path (linkTargetText target)))
      else if info.kind = .directory then
        match refused with
        | some e => .error (.failed (.io e))
        | none =>
          (parallelCollect sched namedChild (sortNamed (surveyListing path listing))).map
            fun children => .node info (childrenOf children) none
      else .ok (.node info .nil none)

def surveyListing (path : Path) : OsListing → List (Bytes × Except WriteStop SurveyNode)
  | .nil => []
  | .unread rest => surveyListing path rest
  | .cons name child rest =>
    (fromUtf8Lossy name, surveyNode (path ++ [name]) child) :: surveyListing path rest

end

end

/-! ### Trees that are the same -/

/-- Statuses of which a policy leaves the same. -/
structure SameStat (policy : MetadataPolicy) (st st' : OsStat) : Prop where
  type : st.mode &&& sIfmt = st'.mode &&& sIfmt
  executable : st.mode &&& sIfmt = sIfreg → (st.mode &&& 0o111 = 0 ↔ st'.mode &&& 0o111 = 0)
  times : policy.pinMtimeNs = none → st.mtimeNs = st'.mtimeNs
  identity : policy.normalizeIdentity = false →
    st.mode = st'.mode ∧ st.uid = st'.uid ∧ st.gid = st'.gid

/-- The same attributes, as far as they are asked for, in any order. -/
structure SameXattrs (xattrs xattrs' : Option (List OsXattr)) : Prop where
  perm : (keptXattrs xattrs).Perm (keptXattrs xattrs')
  names : ((keptXattrs xattrs).map (·.name)).Nodup

/-- The same answers about two nodes; `renumber` takes the device and the inode of a file of the one
tree to those of the other. -/
structure SameAnswers (policy : MetadataPolicy) (renumber : Nat × Nat → Nat × Nat) (st st' : OsStat)
    (xattrs xattrs' : Option (List OsXattr)) (link link' : Except String Bytes)
    (refused refused' : Option String) (sameListing : Prop) : Prop where
  stat : SameStat policy st st'
  xattrs : kindOfMode st.mode ≠ .symlink → SameXattrs xattrs xattrs'
  link : kindOfMode st.mode = .symlink → link = link'
  refused : kindOfMode st.mode = .directory → refused = refused'
  listing : kindOfMode st.mode = .directory → sameListing
  file : kindOfMode st.mode = .file → st.len = st'.len ∧ (st'.dev, st'.ino) = renumber (st.dev, st.ino)

section

variable (policy : MetadataPolicy) (renumber : Nat × Nat → Nat × Nat)

mutual

/-- Trees that differ in what a policy takes away, and in the order of entries and attributes. -/
def OsNode.Same : OsNode → OsNode → Prop
  | .node stat xattrs link refused listing, .node stat' xattrs' link' refused' listing' =>
    ∃ st st', stat = .ok st ∧ stat' = .ok st' ∧ SameAnswers policy renumber st st' xattrs xattrs'
      link link' refused refused' (listing.Same listing'.entries)

def OsListing.Same : OsListing → List (Bytes × OsNode) → Prop
  | .nil, others => others = []
  | .unread rest, others => rest.Same others
  | .cons name child rest, others => ∃ child' others',
    others.Perm ((name, child') :: others') ∧ child.Same child' ∧ rest.Same others'

end

end

mutual

/-- No two names of a directory become the same text. -/
def OsNode.NamesApart : OsNode → Prop
  | .node _ _ _ _ listing =>
    (listing.entries.map fun e => fromUtf8Lossy e.1).Nodup ∧ listing.NamesApart

def OsListing.NamesApart : OsListing → Prop
  | .nil => True
  | .unread rest => rest.NamesApart
  | .cons _ child rest => child.NamesApart ∧ rest.NamesApart

end

/-! ### Surveys that are alike -/

/-- What is said of two nodes that are the same. -/
structure SurveyMeta.Alike (renumber : Nat × Nat → Nat × Nat) (info info' : SurveyMeta) : Prop where
  kind : info'.kind = info.kind
  mtimeNs : info'.mtimeNs = info.mtimeNs
  mode : info'.mode = info.mode
  uid : info'.uid = info.uid
  gid : info'.gid = info.gid
  xattrs : info'.xattrs = info.xattrs
  file : info.kind = .file →
    info'.len = info.len ∧ (info'.dev, info'.ino) = renumber (info.dev, info.ino)

section

variable (renumber : Nat × Nat → Nat × Nat)

mutual

/-- Surveys that differ in the numbers of devices and inodes. -/
def SurveyNode.Alike : SurveyNode → SurveyNode → Prop
  | .node info children target, .node info' children' target' =>
    info.Alike renumber info' ∧ children.Alike children' ∧ target' = target

def SurveyChildren.Alike : SurveyChildren → SurveyChildren → Prop
  | .nil, .nil => True
  | .cons name child rest, .cons name' child' rest' =>
    name' = name ∧ child.Alike child' ∧ rest.Alike rest'
  | _, _ => False

end

/-- Children that were surveyed, under the same name. -/
def SurveyedAlike (child child' : Bytes × Except WriteStop SurveyNode) : Prop :=
  child.1 = child'.1 ∧ ∃ node node', child.2 = .ok node ∧ child'.2 = .ok node' ∧
    node.Alike renumber node'

end

section

variable {policy : MetadataPolicy} {renumber : Nat × Nat → Nat × Nat}

theorem childrenOf_alike {children children' : List (Bytes × SurveyNode)}
    (h : List.Forall₂ (fun a b => a.1 = b.1 ∧ a.2.Alike renumber b.2) children children') :
    (childrenOf children).Alike renumber (childrenOf children') := by
  induction h with
  | nil => exact trivial
  | cons hab _ ih => exact ⟨hab.1.symm, hab.2, ih⟩

/-! ### What a policy leaves -/

theorem canonicalMode_congr {mode mode' : Nat} (htype : mode &&& sIfmt = mode' &&& sIfmt)
    (hexec : mode &&& sIfmt = sIfreg → (mode &&& 0o111 = 0 ↔ mode' &&& 0o111 = 0)) :
    canonicalMode mode = canonicalMode mode' := by
  unfold canonicalMode
  simp only
  rw [← htype]
  by_cases hreg : mode &&& sIfmt = sIfreg
  · simp only [ne_eq, hexec hreg]
  · simp only [hreg, false_and]

theorem kindOfMode_congr {mode mode' : Nat} (htype : mode &&& sIfmt = mode' &&& sIfmt) :
    kindOfMode mode = kindOfMode mode' := by
  unfold kindOfMode
  rw [htype]

theorem SameXattrs.collect {xattrs xattrs' : Option (List OsXattr)} (h : SameXattrs xattrs xattrs') :
    collectXattrs xattrs' = collectXattrs xattrs := by
  unfold collectXattrs
  have hself : List.Forall₂ Eq (keptXattrs xattrs) (keptXattrs xattrs) := List.forall₂_eq_eq_eq ▸ rfl
  have hsorted := @forall₂_insertionSort _ _ _ _ _ _ Eq (fun x : OsXattr => x.name)
    (fun x : OsXattr => x.name) (fun a b hab => congrArg _ hab) _ _ _ hself h.perm h.names
  rw [List.forall₂_eq_eq_eq] at hsorted
  rw [hsorted]

theorem metaOf_kind (st : OsStat) (xattrs : Option (List OsXattr)) :
    (metaOf policy st xattrs).kind = kindOfMode st.mode := by
  have hkind : (policy.apply (surveyMetaOf st)).kind = kindOfMode st.mode := policy.apply_kind _
  unfold metaOf
  simp only
  split
  · exact hkind
  · exact hkind

theorem SameStat.apply {st st' : OsStat} (h : SameStat policy st st') :
    policy.apply (surveyMetaOf st') =
      { policy.apply (surveyMetaOf st) with len := st'.len, dev := st'.dev, ino := st'.ino } := by
  have htime : policy.pinMtimeNs.getD (surveyMetaOf st').mtimeNs
      = policy.pinMtimeNs.getD (surveyMetaOf st).mtimeNs := by
    cases hpin : policy.pinMtimeNs with
    | some pin => rfl
    | none =>
        show (surveyMetaOf st').mtimeNs = (surveyMetaOf st).mtimeNs
        unfold surveyMetaOf
        simp only [h.times hpin]
  have hkind : kindOfMode st'.mode = kindOfMode st.mode := (kindOfMode_congr h.type).symm
  unfold MetadataPolicy.apply
  simp only [htime]
  by_cases hnorm : policy.normalizeIdentity = true
  · simp only [if_pos hnorm, surveyMetaOf, hkind, canonicalMode_congr h.type h.executable]
  · obtain ⟨hmode, huid, hgid⟩ := h.identity (by simpa using hnorm)
    simp only [if_neg hnorm, surveyMetaOf, hkind, hmode, huid, hgid]

/-- Of nodes that are the same the same is said. -/
theorem SameAnswers.alike {st st' : OsStat} {xattrs xattrs' : Option (List OsXattr)}
    {link link' : Except String Bytes} {refused refused' : Option String} {sameListing : Prop}
    (h : SameAnswers policy renumber st st' xattrs xattrs' link link' refused refused' sameListing) :
    (metaOf policy st xattrs).Alike renumber (metaOf policy st' xattrs') := by
  have hkind : (policy.apply (surveyMetaOf st)).kind = kindOfMode st.mode := policy.apply_kind _
  have hmeta := h.stat.apply
  have hidentity : (policy.apply (surveyMetaOf st)).len = st.len ∧
      (policy.apply (surveyMetaOf st)).dev = st.dev ∧ (policy.apply (surveyMetaOf st)).ino = st.ino := by
    unfold MetadataPolicy.apply
    split
    · exact ⟨rfl, rfl, rfl⟩
    · exact ⟨rfl, rfl, rfl⟩
  obtain ⟨hlen, hdev, hino⟩ := hidentity
  have hfile : kindOfMode st.mode = .file →
      st'.len = st.len ∧ (st'.dev, st'.ino) = renumber (st.dev, st.ino) :=
    fun hfile => ⟨(h.file hfile).1.symm, (h.file hfile).2⟩
  by_cases hlink : kindOfMode st.mode = .symlink
  · have hleft : metaOf policy st xattrs = policy.apply (surveyMetaOf st) :=
      if_pos (hkind.trans hlink)
    have hright : metaOf policy st' xattrs' = policy.apply (surveyMetaOf st') :=
      if_pos (by rw [hmeta]; exact hkind.trans hlink)
    rw [hleft, hright, hmeta]
    exact ⟨rfl, rfl, rfl, rfl, rfl, rfl, fun hf => absurd (hlink.symm.trans (hkind.symm.trans hf))
      (by simp)⟩
  · have hleft : metaOf policy st xattrs
        = { policy.apply (surveyMetaOf st) with xattrs := collectXattrs xattrs } :=
      if_neg (by rw [hkind]; exact hlink)
    have hright : metaOf policy st' xattrs'
        = { policy.apply (surveyMetaOf st') with xattrs := collectXattrs xattrs' } :=
      if_neg (by rw [hmeta]; exact fun h => hlink (hkind.symm.trans h))
    rw [hleft, hright, hmeta, (h.xattrs hlink).collect]
    refine ⟨rfl, rfl, rfl, rfl, rfl, rfl, fun hf => ?_⟩
    simp only [hlen, hdev, hino]
    exact hfile (hkind.symm.trans hf)

/-! ### The same trees are surveyed alike -/

theorem surveyListing_eq {sched : Schedule} {path : Path} : ∀ listing : OsListing,
    surveyListing policy sched path listing = listing.entries.map fun e =>
      (fromUtf8Lossy e.1, surveyNode policy sched (path ++ [e.1]) e.2)
  | .nil => by
      unfold surveyListing OsListing.entries
      rfl
  | .unread rest => by
      unfold surveyListing OsListing.entries
      exact surveyListing_eq rest
  | .cons name child rest => by
      unfold surveyListing OsListing.entries
      rw [surveyListing_eq rest]
      rfl

/-- Of children that are alike the names and nodes are. -/
theorem named_alike {surveyed others : List (Bytes × Except WriteStop SurveyNode)}
    (halike : List.Forall₂ (SurveyedAlike renumber) surveyed others) :
    ∀ {children : List (Bytes × SurveyNode)},
      List.Forall₂ (fun a b => namedChild a = .ok b) surveyed children →
      ∃ children', List.Forall₂ (fun a b => namedChild a = .ok b) others children' ∧
        List.Forall₂ (fun a b => a.1 = b.1 ∧ a.2.Alike renumber b.2) children children' := by
  induction halike with
  | nil =>
      intro children h
      cases h
      exact ⟨[], .nil, .nil⟩
  | cons hab _ ih =>
      intro children h
      cases h with
      | cons hnamed hrest =>
          obtain ⟨hname, node, node', hnode, hnode', hnodes⟩ := hab
          obtain ⟨children', hothers, hpairs⟩ := ih hrest
          unfold namedChild at hnamed
          rw [hnode] at hnamed
          cases hnamed
          refine ⟨(_, node') :: children', .cons ?_ hothers, .cons ⟨hname, hnodes⟩ hpairs⟩
          unfold namedChild
          rw [hnode']
          rfl

/-- Children that were surveyed alike in some order make up alike directories. -/
theorem collected_alike {sched sched' : Schedule}
    {surveyed others found : List (Bytes × Except WriteStop SurveyNode)}
    (halike : List.Forall₂ (SurveyedAlike renumber) surveyed found) (hperm : found.Perm others)
    (hapart : (surveyed.map (·.1)).Nodup) {children : List (Bytes × SurveyNode)}
    (h : parallelCollect sched namedChild (sortNamed surveyed) = .ok children) :
    ∃ children', parallelCollect sched' namedChild (sortNamed others) = .ok children' ∧
      (childrenOf children).Alike renumber (childrenOf children') := by
  have hsorted : List.Forall₂ (SurveyedAlike renumber) (sortNamed surveyed) (sortNamed others) :=
    forall₂_insertionSort (fun a b hab => hab.1) halike hperm hapart
  obtain ⟨children', hothers, hpairs⟩ :=
    named_alike hsorted ((parallelCollect_ok_iff sched).mp h)
  exact ⟨children', (parallelCollect_ok_iff sched').mpr hothers, childrenOf_alike hpairs⟩

theorem surveyed_of_collected {sched : Schedule}
    {surveyed : List (Bytes × Except WriteStop SurveyNode)} {children : List (Bytes × SurveyNode)}
    (h : parallelCollect sched namedChild (sortNamed surveyed) = .ok children) :
    ∀ child ∈ surveyed, ∃ node, child.2 = .ok node := by
  intro child hchild
  have hin : child ∈ sortNamed surveyed :=
    (List.perm_insertionSort (fun a b : Bytes × Except WriteStop SurveyNode => a.1 ≤ b.1)
      surveyed).mem_iff.mpr hchild
  obtain ⟨pair, -, hpair⟩ :=
    exists_mem_of_forall₂ ((parallelCollect_ok_iff sched).mp h).flip child hin
  cases hnode : child.2 with
  | ok node => exact ⟨node, rfl⟩
  | error e =>
      unfold namedChild at hpair
      rw [hnode] at hpair
      cases hpair

mutual

/-- **Trees that are the same under a policy are surveyed alike**, in whatever order their entries are
listed, and whichever children are surveyed first. -/
theorem surveyNode_same {sched sched' : Schedule} : ∀ (node node' : OsNode) (path path' : Path),
    node.Same policy renumber node' → node.NamesApart →
    ∀ surveyed, surveyNode policy sched path node = .ok surveyed →
      ∃ surveyed', surveyNode policy sched' path' node' = .ok surveyed' ∧
        surveyed.Alike renumber surveyed'
  | .node stat xattrs link refused listing, .node stat' xattrs' link' refused' listing', path,
      path', hsame, hapart, surveyed, h => by
      unfold OsNode.Same at hsame
      obtain ⟨st, st', rfl, rfl, hanswers⟩ := hsame
      have halike := hanswers.alike
      have hkind : (metaOf policy st xattrs).kind = kindOfMode st.mode := metaOf_kind st xattrs
      have hkind' : (metaOf policy st' xattrs').kind = kindOfMode st.mode := by
        rw [halike.kind, hkind]
      unfold surveyNode at h ⊢
      simp only at h ⊢
      rw [hkind] at h
      rw [hkind']
      by_cases hlink : kindOfMode st.mode = .symlink
      · rw [if_pos hlink] at h ⊢
        rw [← hanswers.link hlink]
        cases link with
        | error e => cases h
        | ok target =>
            simp only at h ⊢
            by_cases htext : utf8Valid target = true
            · rw [if_pos htext] at h ⊢
              cases h
              exact ⟨_, rfl, halike, trivial, rfl⟩
            · rw [if_neg htext] at h
              cases h
      · rw [if_neg hlink] at h ⊢
        by_cases hdir : kindOfMode st.mode = .directory
        · rw [if_pos hdir] at h ⊢
          rw [← hanswers.refused hdir]
          cases refused with
          | some e => cases h
          | none =>
              simp only at h ⊢
              cases hcollect : parallelCollect sched namedChild
                  (sortNamed (surveyListing policy sched path listing)) with
              | error e =>
                  rw [hcollect] at h
                  cases h
              | ok children =>
                  rw [hcollect] at h
                  cases h
                  obtain ⟨found, hfound, hperm⟩ := @surveyListing_same sched sched' listing
                    listing'.entries path path' (hanswers.listing hdir) hapart.2
                    (surveyed_of_collected hcollect)
                  have hnames : ((surveyListing policy sched path listing).map (·.1)).Nodup := by
                    rw [surveyListing_eq, List.map_map]
                    exact hapart.1
                  obtain ⟨children', hcollect', hchildren⟩ :=
                    @collected_alike renumber sched sched' _ _ _ hfound hperm hnames _ hcollect
                  rw [surveyListing_eq, hcollect']
                  exact ⟨_, rfl, halike, hchildren, rfl⟩
        · rw [if_neg hdir] at h ⊢
          cases h
          exact ⟨_, rfl, halike, trivial, rfl⟩

theorem surveyListing_same {sched sched' : Schedule} : ∀ (listing : OsListing)
    (others : List (Bytes × OsNode)) (path path' : Path),
    listing.Same policy renumber others → listing.NamesApart →
    (∀ child ∈ surveyListing policy sched path listing, ∃ node, child.2 = .ok node) →
      ∃ found, List.Forall₂ (SurveyedAlike renumber) (surveyListing policy sched path listing) found ∧
        found.Perm (others.map fun e =>
          (fromUtf8Lossy e.1, surveyNode policy sched' (path' ++ [e.1]) e.2))
  | .nil, others, path, path', hsame, _, _ => by
      unfold OsListing.Same at hsame
      unfold surveyListing
      subst hsame
      exact ⟨[], .nil, .refl _⟩
  | .unread rest, others, path, path', hsame, hapart, hall => by
      unfold OsListing.Same at hsame
      unfold surveyListing at hall ⊢
      exact surveyListing_same rest others path path' hsame hapart hall
  | .cons name child rest, others, path, path', hsame, hapart, hall => by
      unfold OsListing.Same at hsame
      obtain ⟨child', others', hperm, hchild, hrest⟩ := hsame
      unfold surveyListing at hall ⊢
      obtain ⟨surveyed, hsurveyed⟩ := hall _ List.mem_cons_self
      obtain ⟨surveyed', hsurveyed', halike⟩ := @surveyNode_same sched sched' child child'
        (path ++ [name]) (path' ++ [name]) hchild hapart.1 surveyed hsurveyed
      obtain ⟨found, hfound, hothers⟩ := @surveyListing_same sched sched' rest others' path path' hrest
        hapart.2 fun c hc => hall c (List.mem_cons_of_mem _ hc)
      refine ⟨(fromUtf8Lossy name, surveyNode policy sched' (path' ++ [name]) child') :: found,
        .cons ⟨rfl, surveyed, surveyed', hsurveyed, hsurveyed', halike⟩ hfound, ?_⟩
      have hfirst := hperm.map fun e : Bytes × OsNode =>
        (fromUtf8Lossy e.1, surveyNode policy sched' (path' ++ [e.1]) e.2)
      exact (hothers.cons _).trans hfirst.symm

end

end

end LimniFS
