/-
A commit is safe from the opens that do not catch it on its way.

The invariant says where the writer is, what the log and the manifest are there, and what the opens
that began after it stopped have seen.  Each event preserves it unless an open looks at the log, or
removes one, between the log and the manifest: then what was pending is gone for every later open,
or pending twice.
-/
import LimniFS.RaceSteps

namespace LimniFS.Rw

open Lib Lib.Parser

/-! ### What every race preserves -/

/-- What holds at every moment of a race in which nothing catches the commit on its way. -/
structure Race.Inv (image : RwImage) (files : List (Σ _ : Bytes, Bytes)) (new : WriteArtifact)
    (manifest : Bytes) (disk : ImageDisk) (s : Race) : Prop where
  told : Told new.built disk s.disk
  progress : ∃ rest, (Replacer.commit image files).steps new = s.done ++ rest ∧
    (s.left = rest ∨ s.left = [])
  logged : s.done ≠ [] → s.Logged
  stopped : s.left = [] → s.Logged
  old : ¬ s.Replaced → s.disk.image.manifest = some manifest
  replaced : s.Replaced → s.disk.image.manifest = some new.bytes
  log : s.Logged → ¬ s.Replaced → s.disk.log = some (writeWal image files) ∨
    s.disk.log = none ∧ s.Recovered image
  early : s.early ≤ s.opens.length
  running : s.left ≠ [] → s.early = s.opens.length
  late : ∀ i opening, s.early ≤ i → s.opens[i]? = some opening → ¬ s.Replaced →
    opening.Late manifest (writeWal image files) image
  took : ∀ i opening, s.opens[i]? = some opening → opening.Took (writeWal image files) →
    s.early ≤ i ∧ ¬ s.Replaced ∧ s.left = []

section
variable {H : Hash} {z : Omnizip} {fuel : Nat} {image : RwImage}
  {files : List (Σ _ : Bytes, Bytes)} {new : WriteArtifact} {manifest : Bytes} {disk : ImageDisk}
  {s : Race}

theorem Race.inv_init (hmanifest : disk.manifest = some manifest) (htell : NamesTell disk new.built)
    (log : Option Bytes) :
    (Race.init disk log ((Replacer.commit image files).steps new)).Inv image files new manifest
      disk where
  told := told_start htell
  progress := ⟨_, rfl, Or.inl rfl⟩
  logged h := absurd rfl h
  stopped h := by cases h
  old _ := hmanifest
  replaced h := by cases h
  log h := by
    obtain ⟨_, h⟩ := h
    cases h
  early := Nat.le_refl 0
  running _ := rfl
  late i opening _ h := by cases h
  took i opening h := by cases h

theorem Race.Inv.no_late (h : s.Inv image files new manifest disk) (hleft : s.left ≠ []) {i : Nat}
    {opening : Opening} (hi : s.early ≤ i) (hopen : s.opens[i]? = some opening) : False := by
  obtain ⟨hlt, -⟩ := List.getElem?_eq_some_iff.mp hopen
  rw [h.running hleft] at hi
  omega

theorem Race.Inv.stop (h : s.Inv image files new manifest disk) (hlogged : s.Logged) :
    Race.Inv image files new manifest disk { s with left := [] } where
  told := h.told
  progress := by
    obtain ⟨rest, heq, -⟩ := h.progress
    exact ⟨rest, heq, Or.inr rfl⟩
  logged := h.logged
  stopped _ := hlogged
  old := h.old
  replaced := h.replaced
  log := h.log
  early := h.early
  running hleft := absurd rfl hleft
  late := h.late
  took i opening hopen htook := ⟨(h.took i opening hopen htook).1,
    (h.took i opening hopen htook).2.1, rfl⟩

theorem Race.Inv.write (hone : OneContent new.built.files)
    (h : s.Inv image files new manifest disk) : s.write.Inv image files new manifest disk := by
  unfold Race.write
  cases hleft : s.left with
  | nil => exact h
  | cons step rest =>
      have hrunning : s.left ≠ [] := by
        rw [hleft]
        exact List.cons_ne_nil _ _
      obtain ⟨rest', heq, hrest'⟩ := h.progress
      obtain rfl : step :: rest = rest' := by
        rw [hleft] at hrest'
        exact hrest'.resolve_right (List.cons_ne_nil _ _)
      have hcases := commit_step_cases heq
      have hnotook : ∀ (i : Nat) (opening : Opening), s.opens[i]? = some opening →
          ¬ opening.Took (writeWal image files) := fun i opening hopen htook =>
        hrunning (h.took i opening hopen htook).2.2
      simp only
      split
      · next hswept =>
          rcases hcases with ⟨-, rfl⟩ | ⟨hin, -⟩
          · rw [Bool.and_eq_true] at hswept
            cases hswept.2
          · exact h.stop ⟨_, hin⟩
      · split
        · next hfails =>
            rcases hcases with ⟨-, rfl⟩ | ⟨hin, -⟩
            · cases hfails
            · exact h.stop ⟨_, hin⟩
        · next disk' happly =>
            have hlogged : ∃ log, FsStep.writeLog log ∈ s.done ++ [step] := by
              rcases hcases with ⟨-, rfl⟩ | ⟨hin, -⟩
              · exact ⟨_, List.mem_append_right _ List.mem_cons_self⟩
              · exact ⟨_, List.mem_append_left _ hin⟩
            have hof : step.Of new.built := by
              rcases hcases with ⟨-, rfl⟩ | ⟨-, hstep | ⟨rfl, -⟩⟩
              · trivial
              · exact writeArtifact_of step hstep
              · trivial
            -- Whether the step sets the manifest, and whether it is the one that moves it.
            have hsets : step.setsManifest = true ↔ step = .move .manifest := by
              refine ⟨fun hsets => ?_, fun heq => heq ▸ rfl⟩
              rcases hcases with ⟨-, rfl⟩ | ⟨-, hstep | ⟨rfl, -⟩⟩
              · cases hsets
              · exact move_of_setsManifest (writeArtifact_staged step hstep) hsets
              · cases hsets
            have himage := hof.image h.told happly
            have hnew : step = .move .manifest → disk'.image.manifest = some new.bytes := by
              intro hmove
              rcases himage with ⟨hno, -⟩ | ⟨-, himage⟩ | ⟨hno, -⟩
              · rw [hsets.mpr hmove] at hno
                cases hno
              · rw [himage]
                rfl
              · rw [hsets.mpr hmove] at hno
                cases hno
            have hsame : step ≠ .move .manifest →
                disk'.image.manifest = s.disk.image.manifest := by
              intro hmove
              rcases himage with ⟨-, himage⟩ | ⟨hyes, -⟩ | ⟨-, f, -, himage⟩
              · rw [himage]
              · exact absurd (hsets.mp hyes) hmove
              · rw [himage]
                rfl
            have hreplaced : FsStep.move .manifest ∈ s.done ++ [step] ↔
                s.Replaced ∨ step = .move .manifest := by
              rw [List.mem_append, List.mem_singleton, eq_comm]
              rfl
            refine ⟨h.told.apply hone hof happly, ⟨rest, by rw [heq]; simp, Or.inl rfl⟩,
              fun _ => hlogged, fun _ => hlogged, fun hnot => ?_, fun hyes => ?_,
              fun _ hnot' => Or.inl ?_, h.early, fun _ => h.running hrunning,
              fun i opening hi hopen _ => (h.no_late hrunning hi hopen).elim,
              fun i opening hopen htook => (hnotook i opening hopen htook).elim⟩
            · obtain ⟨hnot, hmove⟩ := not_or.mp fun h' => hnot (hreplaced.mpr h')
              exact (hsame hmove).trans (h.old hnot)
            · by_cases hmove : step = .move .manifest
              · exact hnew hmove
              · exact (hsame hmove).trans
                  (h.replaced ((hreplaced.mp hyes).resolve_right hmove))
            · obtain ⟨hnot, -⟩ := not_or.mp fun h' => hnot' (hreplaced.mpr h')
              rcases hcases with ⟨-, rfl⟩ | ⟨hin, hstep | ⟨rfl, hmoved⟩⟩
              · cases happly
                rfl
              · have hlog := log_of_staged (writeArtifact_staged step hstep) happly
                rcases h.log ⟨_, hin⟩ hnot with hthere | ⟨-, hrecovered⟩
                · exact hlog.trans hthere
                · obtain ⟨i, _, _, _, hi, hopen, -⟩ := hrecovered
                  exact (h.no_late hrunning hi hopen).elim
              · exact absurd hmoved hnot

theorem Race.Inv.start (h : s.Inv image files new manifest disk) (stale : Bool) :
    (s.start stale).Inv image files new manifest disk := by
  have himage : (s.start stale).disk.image = s.disk.image := by
    unfold Race.start
    cases stale with
    | false => rfl
    | true => rfl
  have hlog : (s.start stale).disk.log = s.disk.log := by
    unfold Race.start
    cases stale with
    | false => rfl
    | true => rfl
  have hold : ∀ i opening, (s.start stale).opens[i]? = some opening →
      s.opens[i]? = some opening ∨
        i = s.opens.length ∧ opening = s.disk.image.manifest.elim .failed .read := by
    intro i opening hopen
    have hopen : (s.opens ++ [s.disk.image.manifest.elim .failed .read])[i]? = some opening := hopen
    by_cases hi : i < s.opens.length
    · rw [List.getElem?_append_left hi] at hopen
      exact Or.inl hopen
    · rw [List.getElem?_append_right (Nat.not_lt.mp hi)] at hopen
      obtain ⟨hin, heq⟩ := List.getElem?_eq_some_iff.mp hopen
      rw [List.length_singleton] at hin
      refine Or.inr ⟨by omega, ?_⟩
      rw [← heq]
      simp
  have hearly : s.early ≤ (s.start stale).early := by
    show s.early ≤ if s.left = [] then s.early else s.opens.length + 1
    split
    · exact Nat.le_refl _
    · exact Nat.le_succ_of_le h.early
  refine ⟨told_of_same h.told himage ?_, h.progress, h.logged, h.stopped, fun hnot => ?_,
    fun hyes => ?_, fun hlogged hnot => ?_, ?_, fun hleft => ?_, fun i opening hi hopen hnot => ?_,
    fun i opening hopen htook => ?_⟩
  · unfold Race.start
    cases stale with
    | false => exact Or.inl rfl
    | true => exact Or.inr rfl
  · rw [himage]
    exact h.old hnot
  · rw [himage]
    exact h.replaced hyes
  · rw [hlog]
    refine (h.log hlogged hnot).imp_right fun ⟨hnone, i, fresh, log, again, hi, hopen, hsame⟩ => ?_
    refine ⟨hnone, i, fresh, log, again, ?_, ?_, hsame⟩
    · show (if s.left = [] then s.early else s.opens.length + 1) ≤ i
      split
      · exact hi
      · next hleft => exact (h.no_late hleft hi hopen).elim
    · obtain ⟨hlt, -⟩ := List.getElem?_eq_some_iff.mp hopen
      exact (List.getElem?_append_left hlt).trans hopen
  · show (if s.left = [] then s.early else s.opens.length + 1) ≤ (s.opens ++ [_]).length
    rw [List.length_append, List.length_singleton]
    split
    · exact Nat.le_succ_of_le h.early
    · exact Nat.le_refl _
  · show (if s.left = [] then s.early else s.opens.length + 1) = (s.opens ++ [_]).length
    rw [if_neg (show ¬ s.left = [] from hleft), List.length_append, List.length_singleton]
  · rcases hold i opening hopen with hopen | ⟨-, rfl⟩
    · exact h.late i opening (Nat.le_trans hearly hi) hopen hnot
    · rw [h.old hnot]
      rfl
  · rcases hold i opening hopen with hopen | ⟨-, rfl⟩
    · obtain ⟨hi, hnot, hleft⟩ := h.took i opening hopen htook
      refine ⟨?_, hnot, hleft⟩
      show (if s.left = [] then s.early else s.opens.length + 1) ≤ i
      rw [if_pos hleft]
      exact hi
    · cases hmanifest : s.disk.image.manifest with
      | none =>
          rw [hmanifest] at htook
          cases htook
      | some m =>
          rw [hmanifest] at htook
          cases htook

theorem Race.Inv.resume (hreplayed : ∀ fresh, Fresh fresh →
      PendingRestored (replayWal H (some manifest) fresh (some (writeWal image files))) image)
    (hstale : ∀ fresh, replayWal H (some new.bytes) fresh (some (writeWal image files)) = fresh)
    (h : s.Inv image files new manifest disk) {i : Nat}
    (hfree : ¬ (Event.resume i).Catches (writeWal image files) s) :
    (s.resume H z fuel i).Inv image files new manifest disk := by
  unfold Race.resume
  cases hopening : s.opens[i]? with
  | none => exact h
  | some opening =>
      obtain ⟨hi, -⟩ := List.getElem?_eq_some_iff.mp hopening
      have hset : ∀ j o, (s.opens.set i (opening.step H z fuel s.disk).1)[j]? = some o →
          s.opens[j]? = some o ∨ j = i ∧ o = (opening.step H z fuel s.disk).1 := by
        intro j o hj
        by_cases hij : i = j
        · subst hij
          rw [List.getElem?_set_self hi] at hj
          exact Or.inr ⟨rfl, (Option.some.inj hj).symm⟩
        · rw [List.getElem?_set_ne hij] at hj
          exact Or.inl hj
      have hrunning : i < s.early ∨ s.left = [] := by
        by_cases hleft : s.left = []
        · exact Or.inr hleft
        · rw [h.running hleft]
          exact Or.inl hi
      have himage := opening.step_image H z fuel s.disk
      simp only
      refine ⟨told_of_same h.told himage.1 (Or.inl himage.2), h.progress, h.logged, h.stopped,
        fun hnot => himage.1 ▸ h.old hnot, fun hyes => himage.1 ▸ h.replaced hyes,
        fun hlogged hnot => ?_, ?_, fun hleft => ?_, fun j o hj ho hnot => ?_, fun j o ho htook => ?_⟩
      · -- Only an open that restored what is pending removes the log.
        rcases opening.step_disk H z fuel s.disk with
          hsame | ⟨fresh, l, again, rfl, hstep⟩
        · rw [hsame]
          refine (h.log hlogged hnot).imp_right fun ⟨hnone, hrecovered⟩ => ⟨hnone, ?_⟩
          obtain ⟨j, fresh, l, again, hj, hopen, hpending⟩ := hrecovered
          refine ⟨j, fresh, l, again, hj, ?_, hpending⟩
          show (s.opens.set i (opening.step H z fuel s.disk).1)[j]? = _
          by_cases hij : i = j
          · subst hij
            rw [hopening] at hopen
            cases hopen
            exact List.getElem?_set_self hi
          · rw [List.getElem?_set_ne hij]
            exact hopen
        · have hlate : s.early ≤ i := by
            by_contra hlt
            exact hfree ⟨Nat.lt_of_not_le hlt, hnot, Or.inr ⟨hlogged, fresh, l, again, hopening⟩⟩
          rw [hstep]
          refine Or.inr ⟨rfl, i, fresh, some l, again, hlate, ?_, h.late i _ hlate hopening hnot⟩
          show (s.opens.set i _)[i]? = _
          rw [List.getElem?_set_self hi]
      · rw [List.length_set]
        exact h.early
      · rw [List.length_set]
        exact h.running hleft
      · rcases hset j o ho with ho | ⟨rfl, rfl⟩
        · exact h.late j o hj ho hnot
        · have hleft : s.left = [] := hrunning.resolve_left (Nat.not_lt.mpr hj)
          refine Opening.step_late (h.late j opening hj hopening hnot) (h.old hnot) hreplayed ?_
          exact (h.log (h.stopped hleft) hnot).imp_right And.left
      · rcases hset j o ho with ho | ⟨rfl, rfl⟩
        · exact h.took j o ho htook
        · rcases Opening.step_took hstale htook with htook | ⟨hfound, hmanifest⟩
          · exact h.took j opening hopening htook
          · have hnot : ¬ s.Replaced := fun hyes => hmanifest (h.replaced hyes)
            obtain ⟨reader, rfl⟩ := hfound
            have hlate : s.early ≤ j := by
              by_contra hlt
              exact hfree ⟨Nat.lt_of_not_le hlt, hnot, Or.inl ⟨reader, hopening⟩⟩
            exact ⟨hlate, hnot, hrunning.resolve_left (Nat.not_lt.mpr hlate)⟩

/-- **Every event** that does not catch the commit on its way preserves the invariant. -/
theorem Race.Inv.apply (hone : OneContent new.built.files)
    (hreplayed : ∀ fresh, Fresh fresh →
      PendingRestored (replayWal H (some manifest) fresh (some (writeWal image files))) image)
    (hstale : ∀ fresh, replayWal H (some new.bytes) fresh (some (writeWal image files)) = fresh)
    (h : s.Inv image files new manifest disk) {event : Event}
    (hfree : ¬ event.Catches (writeWal image files) s) :
    (s.apply H z fuel event).Inv image files new manifest disk := by
  cases event with
  | write => exact h.write hone
  | crash => exact h.stop (not_not.mp hfree)
  | start stale => exact h.start stale
  | resume i => exact h.resume hreplayed hstale hfree

theorem Race.Inv.run (hone : OneContent new.built.files)
    (hreplayed : ∀ fresh, Fresh fresh →
      PendingRestored (replayWal H (some manifest) fresh (some (writeWal image files))) image)
    (hstale : ∀ fresh, replayWal H (some new.bytes) fresh (some (writeWal image files)) = fresh) :
    ∀ {events : List Event} {s : Race}, s.Inv image files new manifest disk →
      Undisturbed H z fuel (writeWal image files) s events →
      (s.run H z fuel events).Inv image files new manifest disk := by
  intro events
  induction events with
  | nil =>
      intro s h _
      exact h
  | cons event rest ih =>
      intro s h hquiet
      exact ih (h.apply hone hreplayed hstale hquiet.1) hquiet.2

theorem Race.Inv.safe (hreplayed : ∀ fresh, Fresh fresh →
      PendingRestored (replayWal H (some manifest) fresh (some (writeWal image files))) image)
    {opened : RwImage} (hopen : openImage H z fuel ⟨manifest, disk.files⟩ none = .ok (some opened))
    (h : s.Inv image files new manifest disk) :
    RaceSafe H z fuel image (writeWal image files) s := by
  constructor
  · intro hlogged hnot
    rcases h.log (hlogged.elim id h.stopped) hnot with hlog | ⟨-, hrecovered⟩
    · obtain ⟨fresh, hfresh, hagain⟩ := openImage_of_kept h.told.kept hopen s.disk.log
      refine Or.inr ⟨manifest, _, h.old hnot, hagain, ?_⟩
      rw [hlog]
      exact hreplayed fresh hfresh
    · exact Or.inl hrecovered
  · intro hyes opening hin htook
    obtain ⟨i, hi, rfl⟩ := List.getElem_of_mem hin
    exact (h.took i _ (List.getElem?_eq_getElem hi) htook).2.1 hyes

/-- **Whatever other processes open while a commit runs, and wherever it stops**, its changes are
pending for the next open until the manifest is replaced, and for no open afterwards, if nothing
catches it on its way. -/
theorem race_safe : ∀ (H : Hash) (z : Omnizip) (fuel : Nat) (s : Session), Starts H s →
    ∀ (steps : List Step) (disk : ImageDisk) (manifest : Bytes) (opened : RwImage),
    disk.manifest = some manifest →
    openImage H z fuel ⟨manifest, disk.files⟩ none = .ok (some opened) →
    walTag (run H s steps).image = (hashSection H manifest).val →
    LogFits (run H s steps).image → NothingReadded (run H s steps).image →
    ∀ new : WriteArtifact, NamesTell disk new.built →
    hashSection H new.bytes ≠ hashSection H manifest →
    ∀ files : List (Σ _ : Bytes, Bytes), files.Perm (run H s steps).image.pendingFiles.entries →
    ∀ (log : Option Bytes) (events : List Event),
    Undisturbed H z fuel (writeWal (run H s steps).image files)
      (Race.init disk log ((Replacer.commit (run H s steps).image files).steps new)) events →
    RaceSafe H z fuel (run H s steps).image (writeWal (run H s steps).image files)
      ((Race.init disk log ((Replacer.commit (run H s steps).image files).steps new)).run H z fuel
        events) := by
  intro H z fuel s hstart steps disk manifest opened hmanifest hopen htag hfits hnothing new htell
    hother files hfiles log events hquiet
  have hreplayed : ∀ fresh, Fresh fresh → PendingRestored (replayWal H (some manifest) fresh
      (some (writeWal (run H s steps).image files))) (run H s steps).image := fun fresh hfresh =>
    pending_replayed htag hfits hnothing (hstart.texts_run steps) hfiles hfresh
  have hstale : ∀ fresh, replayWal H (some new.bytes) fresh
      (some (writeWal (run H s steps).image files)) = fresh := by
    intro fresh
    refine replayWal_stale (fun heq => hother (Subtype.ext ?_)) files fresh
    exact heq.symm.trans htag
  exact ((Race.inv_init hmanifest htell log).run htell.oneContent hreplayed hstale hquiet).safe
    hreplayed hopen

end

namespace Stored

open LimniFS.Stored FuseVfs.Stored

/-- An opened image, on its own manifest. -/
def session : Session := ⟨rwOpened, ⟨some rwFile.manifest, none⟩⟩

/-- A file is added to the opened image. -/
def oneAddition : List Step := [.call (.addFile ⟨ascii "b", by decide +kernel⟩ (ascii "new"))]

def added : RwImage := (run foldDigest session oneAddition).image

def addedLog : Bytes := writeWal added added.pendingFiles.entries

def rwDisk : ImageDisk := ⟨some rwFile.manifest, fun _ => none⟩

/-- The commit of it. -/
def addedRace : Race :=
  .init rwDisk none ((Replacer.commit added added.pendingFiles.entries).steps (thresholdImage 0))

theorem added_entries : added.pendingFiles.entries = [⟨ascii "/b", ascii "new"⟩] := by
  decide +kernel

theorem logFits_added : LogFits added where
  files := by decide +kernel
  contents path data h := by
    have hmem := AList.mem_lookup_iff.mp h
    rw [added_entries] at hmem
    cases List.mem_singleton.mp hmem
    decide +kernel
  history := by decide +kernel
  paths := by decide +kernel

theorem nothingReadded_added : NothingReadded added := by
  intro e he hop
  have hnone : ∀ e ∈ added.pendingHistory, e.opByte ≠ 3 := by decide +kernel
  exact absurd hop (hnone e he)

theorem namesTell_rwDisk : NamesTell rwDisk (thresholdImage 0).built where
  oneContent := namesTell_emptyDisk.oneContent
  present f _ c hc := by cases hc

theorem logged_addedRace : (addedRace.write.start false).Logged := by
  have hdone : (addedRace.write.start false).done = [.writeLog addedLog] := rfl
  refine ⟨addedLog, ?_⟩
  rw [hdone]
  exact List.mem_singleton_self _

/-- The writer has written its log, and another process opens the image. -/
def openBetween : List Event :=
  [.write, .start false, .resume 0, .resume 0, .resume 0, .resume 0]

end Stored

open LimniFS.Stored LimniFS.Rw.Stored

/-- An open between the log and the manifest takes the log away: if the writer stops there, what was
pending is lost. -/
theorem open_consumes_log :
    Starts foldDigest session ∧
      openImage foldDigest omnizip 8
          ⟨rwFile.manifest, rwDisk.files⟩ none = .ok (some rwOpened) ∧
      walTag added =
        (hashSection foldDigest rwFile.manifest).val ∧
      LogFits added ∧ NothingReadded added ∧
      NamesTell rwDisk (thresholdImage 0).built ∧
      hashSection foldDigest (thresholdImage 0).bytes ≠
        hashSection foldDigest rwFile.manifest ∧
      ¬ RaceSafe foldDigest omnizip 8 added addedLog
        (addedRace.run foldDigest omnizip 8
          openBetween) := by
  refine ⟨Starts.opened openImage_rwOpened, openImage_rwOpened, by decide +kernel,
    logFits_added, nothingReadded_added, namesTell_rwDisk, by decide +kernel,
    fun hsafe => ?_⟩
  have hdone : (addedRace.run foldDigest omnizip 8
      openBetween).done = [.writeLog addedLog] := rfl
  have hlog : (addedRace.run foldDigest omnizip 8
      openBetween).disk.log = none := by
    rw [← Option.isNone_iff_eq_none]
    decide +kernel
  have himage : (addedRace.run foldDigest omnizip 8
      openBetween).disk.image = rwDisk := by
    simp only [Race.run, openBetween, List.foldl_cons, List.foldl_nil, Race.apply,
      Race.resume_image]
    rfl
  rcases hsafe.kept (Or.inl ⟨addedLog, by rw [hdone]; exact List.mem_singleton_self _⟩)
      (fun hyes => by
        unfold Race.Replaced at hyes
        rw [hdone] at hyes
        cases List.mem_singleton.mp hyes) with
    ⟨i, fresh, log, again, hi, hopen, -⟩ | ⟨manifest, again, hmanifest, hopen, hpending⟩
  · obtain ⟨hlt, -⟩ := List.getElem?_eq_some_iff.mp hopen
    exact absurd (Nat.lt_of_le_of_lt hi hlt) (by decide +kernel)
  · rw [himage] at hmanifest hopen
    rw [hlog] at hopen
    obtain rfl : rwFile.manifest = manifest := Option.some.inj hmanifest
    obtain rfl : rwOpened = again :=
      Option.some.inj (Except.ok.inj (openImage_rwOpened.symm.trans hopen))
    exact absurd (hpending.files (ascii "/b")) (by decide +kernel)

theorem race_safe_logged :
    RaceSafe foldDigest omnizip 8 added addedLog
      (addedRace.run foldDigest omnizip 8
        [.write, .start false, .crash]) :=
  race_safe foldDigest omnizip 8 session
    (Starts.opened openImage_rwOpened) oneAddition rwDisk _ _ rfl
    openImage_rwOpened (by decide +kernel) logFits_added nothingReadded_added
    (thresholdImage 0) namesTell_rwDisk (by decide +kernel) _
    (List.Perm.refl _) none _
    ⟨id, id, fun hfree => hfree logged_addedRace, trivial⟩

end LimniFS.Rw
