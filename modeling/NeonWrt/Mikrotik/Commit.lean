import NeonWrt.Mikrotik.SoftConfig

/-!
# Commits of the soft config

A flush puts the CRC into the buffer under the assumption that the CRC field is
zero, which it has looked at before it took the write lock, and a commit that
failed marks the buffer as dirty after it has released the lock. In runs where the
field is zero when the CRC is computed, and no buffer is marked as dirty between
that and the write of another commit, every image written has the right CRC. In
runs where the state is not looked at between a failure and the mark, a clean
buffer equals the partition. Two commits at once, or a reader at the wrong time,
break the one or the other.
-/

namespace NeonWrt.Mikrotik

open Lib

/-- What a reader of the commit attribute saw, with the buffer and the partition at that time. -/
structure Shown where
  clean : Bool
  scBuf : Bytes
  flash : Bytes

/-- The state of the driver, with the images that were handed to `mtd_write` and what readers of
the commit attribute saw. -/
structure World where
  sys : Sys
  written : List Bytes
  shown : List Shown

variable (d : Driver)

/-- The images written by a step. -/
def writes (s : Sys) : Op → List Bytes
  | .write _ _ => [s.scBuf]
  | _ => []

/-- What a step shows. -/
def shows (s : Sys) : Op → List Shown
  | .show => [⟨d.scCommitShow s, s.scBuf, s.flash⟩]
  | _ => []

/-- The state after `rb_softconfig_init`. -/
def Driver.init : Sys := ⟨d.image, d.image, none, fun _ => .idle⟩

/-- The first state of a run. -/
def Start (w : World) : Prop := w = ⟨d.init, [], []⟩

/-- One step, with what it writes and shows. -/
def World.exec (w : World) (op : Op) : Option World :=
  (d.exec w.sys op).map fun s => ⟨s, writes w.sys op ++ w.written, shows d w.sys op ++ w.shown⟩

/-- A step of a run. -/
def Step (w : World) (op : Op) (w' : World) : Prop := w.exec d op = some w'

/-- The CRC field of an image is the CRC of the image with a zero in that field. -/
def ImageOk (b : Bytes) : Prop := d.getCrc b = fcs (d.clrCrc b)

instance (b : Bytes) : Decidable (ImageOk d b) := inferInstanceAs (Decidable (_ = _))

/-- The CRC is computed over a buffer whose CRC field is zero, and the field is cleared only while
no commit is between that and the write. -/
def CrcStepOk (w : World) : Op → Prop
  | .setCrc _ => d.getCrc w.sys.scBuf = 0
  | .clrCrc _ => d.getCrc w.sys.scBuf = 0 ∨ ∀ t, w.sys.pc t ≠ .sealed ∧ w.sys.pc t ≠ .erased
  | _ => True

/-- The commit attribute is looked at only while no commit has failed without having marked the
buffer yet. -/
def ShowStepOk (w : World) : Op → Prop
  | .show => ∀ t, w.sys.pc t ≠ .mtdfail
  | _ => True

section Crc

variable {d} {b : Bytes} {crc : ℕ}

theorem length_setCrc (h : rbScCrc32Offset + 4 ≤ b.length) (crc : ℕ) :
    (d.setCrc crc b).length = b.length :=
  length_overwrite (by rwa [Endian.length_u32])

theorem getCrc_setCrc (h : rbScCrc32Offset + 4 ≤ b.length) (hcrc : crc < 4294967296) :
    d.getCrc (d.setCrc crc b) = crc := by
  have hat : HasAt (d.setCrc crc b) rbScCrc32Offset (d.endian.u32 crc) :=
    hasAt_overwrite (by omega)
  rw [Driver.getCrc, hat.endian, Nat.mod_eq_of_lt hcrc]

theorem getCrc_clrCrc (h : rbScCrc32Offset + 4 ≤ b.length) : d.getCrc (d.clrCrc b) = 0 :=
  getCrc_setCrc h (by decide)

theorem clrCrc_setCrc (h : rbScCrc32Offset + 4 ≤ b.length) (crc : ℕ) :
    d.clrCrc (d.setCrc crc b) = d.clrCrc b :=
  overwrite_overwrite (by omega) (by rw [Endian.length_u32, Endian.length_u32])

/-- Clearing a field that is zero changes nothing. -/
theorem clrCrc_of_zero (h : rbScCrc32Offset + 4 ≤ b.length) (hzero : d.getCrc b = 0) :
    d.clrCrc b = b :=
  (Endian.hasAt_zero h hzero).overwrite_eq

theorem fcs_lt (b : Bytes) : fcs b < 4294967296 :=
  Nat.xor_lt_two_pow (crc32le_lt (by decide) b) (by decide)

/-- A CRC that was computed over a zero field is right. -/
theorem imageOk_setCrc (h : rbScCrc32Offset + 4 ≤ b.length) (hzero : d.getCrc b = 0) :
    ImageOk d (d.setCrc (fcs b) b) := by
  rw [ImageOk, getCrc_setCrc h (fcs_lt b), clrCrc_setCrc h, clrCrc_of_zero h hzero]

end Crc

/-- The thread holds the write lock. -/
def Pc.locked : Pc → Bool
  | .rereading | .flushing | .sealed | .erased | .unlocking _ => true
  | _ => false

/-- The buffer and the partition may differ although the CRC field is not zero. -/
def Pc.unsaved : Pc → Bool
  | .sealed | .erased | .unlocking false | .mtdfail => true
  | _ => false

/-- What a step can do, by its label. -/
inductive Moves (s : Sys) : Op → Sys → Prop
  | refused {i admin text} : Moves s (.store i admin text) s
  | stored {i admin text} (ofs value : ℕ) : s.lock = none →
      Moves s (.store i admin text)
        { s with scBuf := d.clrCrc (overwrite s.scBuf ofs (d.endian.u32 value)) }
  | looked : s.lock = none → Moves s .show s
  | noop {t text device} : Moves s (.commit t text device) s
  | checked {t text device} (flush : Bool) : s.pc t = .idle →
      Moves s (.commit t text device) (s.goto t (.checked flush))
  | locked {t} (flush : Bool) : s.lock = none → s.pc t = .checked flush →
      Moves s (.lock t)
        ({ s with lock := some t }.goto t (if flush then .flushing else .rereading))
  | setCrc {t} : s.pc t = .flushing →
      Moves s (.setCrc t) ({ s with scBuf := d.setCrc (fcs s.scBuf) s.scBuf }.goto t .sealed)
  | erased {t r} (blank : Bytes) : s.pc t = .sealed → blank.length = s.flash.length →
      Moves s (.erase t r) ({ s with flash := blank }.goto t .erased)
  | notErased {t r} (left : Bytes) : s.pc t = .sealed → left.length = s.flash.length →
      Moves s (.erase t r) ({ s with flash := left }.goto t (.unlocking false))
  | written {t r} : s.pc t = .erased →
      Moves s (.write t r) ({ s with flash := s.scBuf }.goto t (.unlocking true))
  | notWritten {t r} (left : Bytes) : s.pc t = .erased → left.length = s.flash.length →
      Moves s (.write t r) ({ s with flash := left }.goto t (.unlocking false))
  | reread {t r} : s.pc t = .rereading →
      Moves s (.read t r) ({ s with scBuf := s.flash }.goto t (.unlocking true))
  | notReread {t r} (left : Bytes) : s.pc t = .rereading → left.length = s.scBuf.length →
      Moves s (.read t r) ({ s with scBuf := left }.goto t (.unlocking false))
  | unlocked {t} (ok : Bool) : s.pc t = .unlocking ok →
      Moves s (.unlock t) ({ s with lock := none }.goto t (if ok then .idle else .mtdfail))
  | cleared {t} : s.pc t = .mtdfail →
      Moves s (.clrCrc t) ({ s with scBuf := d.clrCrc s.scBuf }.goto t .idle)

variable {d} {s s' : Sys} {op : Op} {w w' : World}

theorem exec_moves (h : d.exec s op = some s') : Moves d s op s' := by
  cases op with
  | store i admin text =>
    simp only [Driver.exec] at h
    split at h
    · simp at h
    · next attr _ =>
      split at h
      · obtain rfl := Option.some.inj h
        exact .refused
      · next value _ =>
        obtain ⟨hlock, h⟩ := Option.ite_none_right_eq_some.mp h
        obtain rfl := Option.some.inj h
        exact .stored _ value hlock
  | «show» =>
    obtain ⟨hlock, h⟩ := Option.ite_none_right_eq_some.mp h
    obtain rfl := Option.some.inj h
    exact .looked hlock
  | commit t text device =>
    obtain ⟨hidle, h⟩ := Option.ite_none_right_eq_some.mp h
    by_cases hcrc : d.getCrc s.scBuf ≠ 0
    · rw [if_pos hcrc] at h
      obtain rfl := Option.some.inj h
      exact .noop
    · rw [if_neg hcrc] at h
      split at h
      · obtain rfl := Option.some.inj h
        exact .noop
      · next flush _ =>
        obtain rfl := Option.some.inj h
        cases device with
        | true => exact .checked flush hidle.2
        | false => exact .noop
  | lock t =>
    simp only [Driver.exec] at h
    split at h
    · next flush hpc =>
      obtain ⟨hlock, h⟩ := Option.ite_none_right_eq_some.mp h
      obtain rfl := Option.some.inj h
      exact .locked flush hlock hpc
    · simp at h
  | setCrc t =>
    obtain ⟨hpc, h⟩ := Option.ite_none_right_eq_some.mp h
    obtain rfl := Option.some.inj h
    exact .setCrc hpc
  | erase t r =>
    obtain ⟨⟨hpc, hlen⟩, h⟩ := Option.ite_none_right_eq_some.mp h
    by_cases hret : r.ret = 0
    · rw [if_pos hret] at h
      obtain rfl := Option.some.inj h
      exact .erased _ hpc (List.length_replicate ..)
    · rw [if_neg hret] at h
      obtain rfl := Option.some.inj h
      exact .notErased _ hpc hlen
  | write t r =>
    obtain ⟨⟨hpc, hlen⟩, h⟩ := Option.ite_none_right_eq_some.mp h
    obtain rfl := Option.some.inj h
    cases r.complete s.flash.length with
    | true => exact .written hpc
    | false => exact .notWritten _ hpc hlen
  | read t r =>
    obtain ⟨⟨hpc, hlen⟩, h⟩ := Option.ite_none_right_eq_some.mp h
    obtain rfl := Option.some.inj h
    cases r.complete s.flash.length with
    | true => exact .reread hpc
    | false => exact .notReread _ hpc hlen
  | unlock t =>
    simp only [Driver.exec] at h
    split at h
    · next ok hpc =>
      obtain rfl := Option.some.inj h
      exact .unlocked ok hpc
    · simp at h
  | clrCrc t =>
    obtain ⟨hpc, h⟩ := Option.ite_none_right_eq_some.mp h
    obtain rfl := Option.some.inj h
    exact .cleared hpc

@[simp] theorem goto_pc (s : Sys) (t u : ℕ) (pc : Pc) :
    (s.goto t pc).pc u = if u = t then pc else s.pc u :=
  Function.update_apply ..

@[simp] theorem goto_scBuf (s : Sys) (t : ℕ) (pc : Pc) : (s.goto t pc).scBuf = s.scBuf := rfl

@[simp] theorem goto_flash (s : Sys) (t : ℕ) (pc : Pc) : (s.goto t pc).flash = s.flash := rfl

@[simp] theorem goto_lock (s : Sys) (t : ℕ) (pc : Pc) : (s.goto t pc).lock = s.lock := rfl

/-- The CRC field lies in the buffer, and a thread that works under the write lock holds it. -/
structure LockInv (s : Sys) : Prop where
  scBuf : rbScCrc32Offset + 4 ≤ s.scBuf.length
  flash : rbScCrc32Offset + 4 ≤ s.flash.length
  holder : ∀ t, (s.pc t).locked = true → s.lock = some t

/-- A thread that moves on among the places that need no lock, or keeps it. -/
theorem LockInv.goto {t : ℕ} {pc : Pc} (h : LockInv s) (hpc : pc.locked = true → s.lock = some t) :
    LockInv (s.goto t pc) := by
  refine ⟨h.scBuf, h.flash, fun u hu => ?_⟩
  rw [goto_pc] at hu
  split_ifs at hu with hut
  · exact hut ▸ hpc hu
  · exact h.holder u hu

theorem LockInv.held {t : ℕ} {pc : Pc} (h : LockInv s) (hpc : s.pc t = pc)
    (hlocked : pc.locked = true) : s.lock = some t :=
  h.holder t (hpc ▸ hlocked)

theorem LockInv.free {t : ℕ} (h : LockInv s) (hlock : s.lock = none) : (s.pc t).locked = false := by
  by_contra hlocked
  have hholder := h.holder t (by simpa using hlocked)
  rw [hlock] at hholder
  cases hholder

/-- The buffer and the partition get other contents. -/
theorem LockInv.contents (h : LockInv s) {buf flash : Bytes} (hbuf : s.scBuf.length ≤ buf.length)
    (hflash : s.flash.length ≤ flash.length) : LockInv { s with scBuf := buf, flash := flash } :=
  ⟨h.scBuf.trans hbuf, h.flash.trans hflash, h.holder⟩

theorem LockInv.step (h : LockInv s) (hmoves : Moves d s op s') : LockInv s' := by
  have hsame := le_refl s.scBuf.length
  have hsame' := le_refl s.flash.length
  cases hmoves with
  | refused => exact h
  | noop => exact h
  | looked => exact h
  | stored ofs value =>
    have hlong : s.scBuf.length ≤ (overwrite s.scBuf ofs (d.endian.u32 value)).length :=
      le_length_overwrite
    exact h.contents (hlong.trans le_length_overwrite) hsame'
  | checked => exact h.goto (by simp [Pc.locked])
  | @locked t flush hlock =>
    have hother : LockInv { s with lock := some t } :=
      ⟨h.scBuf, h.flash, fun u hu => absurd hu (by simp [h.free hlock])⟩
    exact hother.goto fun _ => rfl
  | setCrc hpc =>
    have hheld := h.held hpc rfl
    exact (h.contents (length_setCrc h.scBuf _).ge hsame').goto fun _ => hheld
  | erased blank hpc hlen =>
    have hheld := h.held hpc rfl
    exact (h.contents hsame hlen.ge).goto fun _ => hheld
  | notErased left hpc hlen =>
    have hheld := h.held hpc rfl
    exact (h.contents hsame hlen.ge).goto fun _ => hheld
  | written hpc =>
    have hheld := h.held hpc rfl
    have hboth : LockInv { s with flash := s.scBuf } := ⟨h.scBuf, h.scBuf, h.holder⟩
    exact hboth.goto fun _ => hheld
  | notWritten left hpc hlen =>
    have hheld := h.held hpc rfl
    exact (h.contents hsame hlen.ge).goto fun _ => hheld
  | reread hpc =>
    have hheld := h.held hpc rfl
    have hboth : LockInv { s with scBuf := s.flash } := ⟨h.flash, h.flash, h.holder⟩
    exact hboth.goto fun _ => hheld
  | notReread left hpc hlen =>
    have hheld := h.held hpc rfl
    exact (h.contents hlen.ge hsame').goto fun _ => hheld
  | @unlocked t ok hpc =>
    refine ⟨h.scBuf, h.flash, fun u hu => ?_⟩
    rw [goto_pc] at hu
    by_cases hut : u = t
    · rw [if_pos hut] at hu
      cases ok <;> simp [Pc.locked] at hu
    · -- no other thread can have worked under the lock
      rw [if_neg hut] at hu
      have hheld := (h.held hpc rfl).symm.trans (h.holder u hu)
      exact absurd (Option.some.inj hheld).symm hut
  | cleared hpc =>
    exact (h.contents (length_setCrc h.scBuf _).ge hsame').goto (by simp [Pc.locked])

variable (d) in
/-- The image is right while a commit is between its CRC and its write. -/
def Due (s : Sys) : Prop := ∀ t, s.pc t = .sealed ∨ s.pc t = .erased → ImageOk d s.scBuf

theorem Due.goto {t : ℕ} {pc : Pc} (h : Due d s)
    (hpc : pc = .sealed ∨ pc = .erased → ImageOk d s.scBuf) : Due d (s.goto t pc) := by
  intro u hu
  rw [goto_pc] at hu
  split_ifs at hu
  · exact hpc hu
  · exact h u hu

theorem LockInv.not_due {t u : ℕ} {pc : Pc} (h : LockInv s) (hpc : s.pc t = pc)
    (hlocked : pc.locked = true) (hother : pc ≠ .sealed ∧ pc ≠ .erased) :
    ¬ (s.pc u = .sealed ∨ s.pc u = .erased) := by
  intro hu
  have hheld : s.lock = some u := by
    rcases hu with hu | hu
    · exact h.held hu rfl
    · exact h.held hu rfl
  obtain rfl := Option.some.inj ((h.held hpc hlocked).symm.trans hheld)
  rw [hpc] at hu
  exact hu.elim hother.1 hother.2

theorem LockInv.free_not_due {t : ℕ} (h : LockInv s) (hlock : s.lock = none) :
    ¬ (s.pc t = .sealed ∨ s.pc t = .erased) := by
  have hfree := h.free hlock (t := t)
  rintro (hpc | hpc) <;> simp [hpc, Pc.locked] at hfree

theorem Due.step (hlock : LockInv w.sys) (h : Due d w.sys) (hok : CrcStepOk d w op)
    (hmoves : Moves d w.sys op s') : Due d s' := by
  cases hmoves with
  | refused => exact h
  | noop => exact h
  | looked => exact h
  | stored ofs value hfree => exact fun t ht => absurd ht (hlock.free_not_due hfree)
  | checked => exact h.goto (by simp)
  | locked flush => exact Due.goto (s := { w.sys with lock := some _ }) h (by cases flush <;> simp)
  | setCrc hpc =>
    -- the CRC that was computed is the right one for every thread
    exact fun t _ => imageOk_setCrc hlock.scBuf hok
  | @erased t r blank hpc =>
    exact Due.goto (s := { w.sys with flash := blank }) h fun _ => h t (.inl hpc)
  | notErased left => exact Due.goto (s := { w.sys with flash := left }) h (by simp)
  | written => exact Due.goto (s := { w.sys with flash := w.sys.scBuf }) h (by simp)
  | notWritten left => exact Due.goto (s := { w.sys with flash := left }) h (by simp)
  | reread hpc =>
    have hnone : Due d { w.sys with scBuf := w.sys.flash } :=
      fun u hu => absurd hu (hlock.not_due hpc rfl (by simp))
    exact hnone.goto (by simp)
  | notReread left hpc =>
    have hnone : Due d { w.sys with scBuf := left } :=
      fun u hu => absurd hu (hlock.not_due hpc rfl (by simp))
    exact hnone.goto (by simp)
  | unlocked ok => exact Due.goto (s := { w.sys with lock := none }) h (by cases ok <;> simp)
  | @cleared t =>
    have hsame : Due d { w.sys with scBuf := d.clrCrc w.sys.scBuf } := by
      intro u hu
      rcases hok with hzero | hnone
      · change ImageOk d (d.clrCrc w.sys.scBuf)
        rw [clrCrc_of_zero hlock.scBuf hzero]
        exact h u hu
      · exact absurd hu (not_or.mpr (hnone u))
    exact hsame.goto (by simp)

variable (d) in
/-- The lock is respected, and the images that were written or are due are right. -/
structure CrcInv (w : World) : Prop where
  lock : LockInv w.sys
  due : Due d w.sys
  written : ∀ img ∈ w.written, ImageOk d img

theorem Step.moves (h : Step d w op w') : Moves d w.sys op w'.sys ∧
    w'.written = writes w.sys op ++ w.written ∧ w'.shown = shows d w.sys op ++ w.shown := by
  obtain ⟨s, hexec, rfl⟩ := Option.map_eq_some_iff.mp h
  exact ⟨exec_moves hexec, rfl, rfl⟩

theorem lockInv_init : LockInv d.init := ⟨d.room, d.room, fun _ h => by simp [Driver.init, Pc.locked] at h⟩

/-- The image of a write is the one that was due. -/
theorem Due.writes (h : Due d s) (hmoves : Moves d s op s') : ∀ img ∈ writes s op, ImageOk d img := by
  intro img himg
  cases hmoves with
  | @written t r hpc =>
    obtain rfl := List.mem_singleton.mp himg
    exact h t (.inr hpc)
  | @notWritten t r left hpc =>
    obtain rfl := List.mem_singleton.mp himg
    exact h t (.inr hpc)
  | _ => simp [Mikrotik.writes] at himg

theorem CrcInv.step (h : CrcInv d w) (hok : CrcStepOk d w op) (hstep : Step d w op w') :
    CrcInv d w' := by
  obtain ⟨hmoves, hwritten, -⟩ := hstep.moves
  refine ⟨h.lock.step hmoves, h.due.step h.lock hok hmoves, fun img himg => ?_⟩
  rw [hwritten, List.mem_append] at himg
  exact himg.elim (h.due.writes hmoves img) (h.written img)

/-- In every run whose CRCs are computed over a zero field, and whose buffers are marked as dirty
only while no commit is about to write, every image written carries its CRC. -/
theorem written_images_ok (h : Reaches (Start d) (Step d) (CrcStepOk d) w) :
    ∀ img ∈ w.written, ImageOk d img := by
  have hinv : CrcInv d w := by
    refine h.invariant (fun v hv => ?_) fun v op v' hv hok hstep => hv.step hok hstep
    obtain rfl := hv
    exact ⟨lockInv_init, fun t ht => by simp [Driver.init] at ht, by simp⟩
  exact hinv.written

variable (d) in
/-- A CRC field that is not zero belongs to contents that are saved, unless a commit is between its
CRC and its end or has failed without having marked the buffer. -/
def Saved (s : Sys) : Prop :=
  d.getCrc s.scBuf ≠ 0 → (∀ t, (s.pc t).unsaved = false) → s.scBuf = s.flash

theorem Saved.of_zero (h : d.getCrc s.scBuf = 0) : Saved d s := fun hcrc => absurd h hcrc

theorem Saved.of_unsaved {t : ℕ} (h : (s.pc t).unsaved = true) : Saved d s := by
  intro _ hnone
  rw [hnone t] at h
  cases h

/-- A thread moves from and to places where nothing is unsaved. -/
theorem Saved.goto {t : ℕ} {pc : Pc} (h : Saved d s) (hold : (s.pc t).unsaved = false) :
    Saved d (s.goto t pc) := by
  intro hcrc hnone
  refine h hcrc fun u => ?_
  by_cases hut : u = t
  · exact hut ▸ hold
  · have hu := hnone u
    rwa [goto_pc, if_neg hut] at hu

theorem Saved.step (hlock : LockInv s) (h : Saved d s) (hmoves : Moves d s op s') : Saved d s' := by
  -- a thread that stopped at a place where something is unsaved
  have hstop : ∀ (u : Sys) (t : ℕ) (pc : Pc), pc.unsaved = true → Saved d (u.goto t pc) :=
    fun u t pc hpc => .of_unsaved (t := t) (by rwa [goto_pc, if_pos rfl])
  cases hmoves with
  | refused => exact h
  | noop => exact h
  | looked => exact h
  | stored ofs value =>
    exact .of_zero (getCrc_clrCrc (hlock.scBuf.trans le_length_overwrite))
  | checked flush hpc => exact h.goto (hpc ▸ rfl)
  | @locked t flush _ hpc =>
    have hold : (s.pc t).unsaved = false := hpc ▸ rfl
    exact Saved.goto (s := { s with lock := some t }) h hold
  | setCrc => exact hstop _ _ _ rfl
  | erased => exact hstop _ _ _ rfl
  | notErased => exact hstop _ _ _ rfl
  | written => exact fun _ _ => rfl
  | notWritten => exact hstop _ _ _ rfl
  | reread => exact fun _ _ => rfl
  | notReread => exact hstop _ _ _ rfl
  | @unlocked t ok hpc =>
    cases ok with
    | true =>
      have hold : (s.pc t).unsaved = false := hpc ▸ rfl
      exact Saved.goto (s := { s with lock := none }) h hold
    | false => exact hstop _ _ _ rfl
  | cleared => exact .of_zero (getCrc_clrCrc hlock.scBuf)

variable (d) in
/-- The lock is respected, nothing clean is unsaved, and what was shown as clean was saved. -/
structure ShowInv (w : World) : Prop where
  lock : LockInv w.sys
  saved : Saved d w.sys
  shown : ∀ x ∈ w.shown, x.clean = true → x.scBuf = x.flash

/-- While no thread works under the lock, contents are unsaved after a failure only. -/
theorem LockInv.saved_of_free {t : ℕ} (h : LockInv s) (hlock : s.lock = none)
    (hok : s.pc t ≠ .mtdfail) : (s.pc t).unsaved = false := by
  have hfree := h.free hlock (t := t)
  generalize s.pc t = pc at hfree hok
  cases pc <;> simp_all [Pc.locked, Pc.unsaved]

theorem ShowInv.step (h : ShowInv d w) (hok : ShowStepOk w op) (hstep : Step d w op w') :
    ShowInv d w' := by
  obtain ⟨hmoves, -, hshown⟩ := hstep.moves
  refine ⟨h.lock.step hmoves, h.saved.step h.lock hmoves, fun x hx hclean => ?_⟩
  rw [hshown, List.mem_append] at hx
  refine hx.elim (fun hx => ?_) fun hx => h.shown x hx hclean
  generalize w'.sys = s' at hmoves
  cases hmoves with
  | looked hlock =>
    obtain rfl := List.mem_singleton.mp hx
    exact h.saved (by simpa [Driver.scCommitShow] using hclean)
      fun t => h.lock.saved_of_free hlock (hok t)
  | _ => simp [shows] at hx

/-- In every run in which the commit attribute is looked at only while no failed commit has still
to mark the buffer, what is shown as clean equals the partition. -/
theorem clean_is_saved (h : Reaches (Start d) (Step d) ShowStepOk w) :
    ∀ x ∈ w.shown, x.clean = true → x.scBuf = x.flash := by
  have hinv : ShowInv d w := by
    refine h.invariant (fun v hv => ?_) fun v op v' hv hok hstep => hv.step hok hstep
    obtain rfl := hv
    exact ⟨lockInv_init, fun _ _ => rfl, by simp⟩
  exact hinv.shown

/-- A partition with a boot key that is not set. -/
def bootKeyDriver : Driver where
  endian := .little
  soc := .notAth79
  image := ascii "Soft" ++ [234, 215, 183, 169] ++ [4, 0, 4, 0] ++ [0, 0, 0, 0] ++ [0, 0, 0, 0]
  room := by decide
  magic := by decide

/-- An operation of the device that succeeds. -/
def allDone : MtdResult := ⟨0, 20, List.replicate 20 0⟩

/-- An operation of the device that fails and leaves zeros behind. -/
def notDone : MtdResult := ⟨-5, 0, List.replicate 20 0⟩

/-- The boot key is set and flushed by the first thread. -/
def setAndFlush : List Op :=
  [.store 3 true (ascii "del"), .commit 0 (ascii "1") true, .commit 1 (ascii "1") true, .lock 0,
    .setCrc 0, .erase 0 allDone]

/-- The image of a single flush is right. -/
theorem written_images_ok_flush : ∃ w, Reaches (Start bootKeyDriver) (Step bootKeyDriver)
    (CrcStepOk bootKeyDriver) w ∧ w.written ≠ [] ∧ ∀ img ∈ w.written, ImageOk bootKeyDriver img := by
  let test (w : World) : Op → Bool
    | .setCrc _ => bootKeyDriver.getCrc w.sys.scBuf == 0
    | .clrCrc _ => false
    | _ => true
  have htest : ∀ w op, test w op = true → CrcStepOk bootKeyDriver w op := by
    intro w op h
    cases op <;> simp_all [test, CrcStepOk]
  have hrun : (runAll (World.exec bootKeyDriver) test ⟨bootKeyDriver.init, [], []⟩
      (setAndFlush ++ [.write 0 allDone])).map (fun w => decide (w.written ≠ [])) = some true := by
    decide +kernel
  obtain ⟨w, hw, hvalue⟩ := Option.map_eq_some_iff.mp hrun
  have hreach : Reaches (Start bootKeyDriver) (Step bootKeyDriver) (CrcStepOk bootKeyDriver) w :=
    reaches_runAll htest (.start rfl) hw
  exact ⟨w, hreach, of_decide_eq_true hvalue, written_images_ok hreach⟩

/-- Two threads that both found the CRC field zero: the second computes its CRC over the CRC of the
first. -/
theorem exists_written_image_bad : ∃ w, Reaches (Start bootKeyDriver) (Step bootKeyDriver)
    (fun _ _ => True) w ∧ ∃ img ∈ w.written, ¬ ImageOk bootKeyDriver img := by
  have hrun : (runAll (World.exec bootKeyDriver) (fun _ _ => true) ⟨bootKeyDriver.init, [], []⟩
      (setAndFlush ++ [.write 0 allDone, .unlock 0, .lock 1, .setCrc 1, .erase 1 allDone,
        .write 1 allDone])).map (fun w => decide (∃ img ∈ w.written, ¬ ImageOk bootKeyDriver img)) =
      some true := by
    decide +kernel
  obtain ⟨w, hw, hvalue⟩ := Option.map_eq_some_iff.mp hrun
  exact ⟨w, reaches_runAll (fun _ _ _ => trivial) (.start rfl) hw, of_decide_eq_true hvalue⟩

/-- The clean state of a driver that was just initialised. -/
theorem clean_is_saved_init : ∃ w, Reaches (Start bootKeyDriver) (Step bootKeyDriver) ShowStepOk w ∧
    ∃ x ∈ w.shown, x.clean = true ∧ x.scBuf = x.flash := by
  have hreach : Reaches (Start bootKeyDriver) (Step bootKeyDriver) ShowStepOk
      ⟨bootKeyDriver.init, [], [⟨true, bootKeyDriver.image, bootKeyDriver.image⟩]⟩ := by
    refine Reaches.next .show (.start rfl) (fun t => by simp [Driver.init]) ?_
    have hclean : bootKeyDriver.scCommitShow bootKeyDriver.init = true := by decide +kernel
    rw [Step, World.exec, shows, hclean]
    rfl
  exact ⟨_, hreach, _, List.mem_singleton.mpr rfl, rfl,
    clean_is_saved hreach _ (List.mem_singleton.mpr rfl) rfl⟩

/-- A flush whose write fails, and a reader that comes before the buffer is marked as dirty. -/
theorem exists_clean_not_saved : ∃ w, Reaches (Start bootKeyDriver) (Step bootKeyDriver)
    (fun _ _ => True) w ∧ ∃ x ∈ w.shown, x.clean = true ∧ x.scBuf ≠ x.flash := by
  have hrun : (runAll (World.exec bootKeyDriver) (fun _ _ => true) ⟨bootKeyDriver.init, [], []⟩
      (setAndFlush ++ [.write 0 notDone, .unlock 0, .show])).map
        (fun w => decide (∃ x ∈ w.shown, x.clean = true ∧ x.scBuf ≠ x.flash)) = some true := by
    decide +kernel
  obtain ⟨w, hw, hvalue⟩ := Option.map_eq_some_iff.mp hrun
  exact ⟨w, reaches_runAll (fun _ _ _ => trivial) (.start rfl) hw, of_decide_eq_true hvalue⟩

end NeonWrt.Mikrotik
