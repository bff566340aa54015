import PinsBackend.Proofs.Machine.Words

/-! The regions of memory under any sequence of operations.

Static data grows upward from the start of memory and frames grow downward from its end. A `Session`
keeps a record of what was reserved beside the memory: the blocks of static data, and the live
frames with the registers that were read before each was pushed. Its operations may fail; then
nothing changes, and the session goes on. -/
namespace PinsBackend.Memory

/-- The addresses from `low` up to `high`, without it. -/
structure Region where
  low : Int
  high : Int
  deriving DecidableEq, Repr

namespace Region

def Apart (r s : Region) : Prop := r.high ≤ s.low ∨ s.high ≤ r.low

def Inside (r : Region) (low high : Int) : Prop := low ≤ r.low ∧ r.low ≤ r.high ∧ r.high ≤ high

theorem Inside.mono {r : Region} {low high low' high' : Int} (h : r.Inside low high)
    (hl : low' ≤ low) (hh : high ≤ high') : r.Inside low' high' :=
  ⟨Int.le_trans hl h.1, h.2.1, Int.le_trans h.2.2 hh⟩

end Region

/-- A live frame, with the registers that were read before it was pushed. -/
structure Pushed where
  region : Region
  saved : Registers
  deriving DecidableEq, Repr

/-- Frames lie below each other from `top` down to the registers, the youngest first. -/
def Piled (top : Int) : List Pushed → Registers → Prop
  | [], r => r = ⟨top, top⟩
  | f :: fs, r =>
    r = ⟨f.region.low, f.region.low⟩ ∧ f.region.low ≤ f.region.high ∧ f.region.high = f.saved.sp ∧
      Word.bytes ∣ f.saved.sp ∧ Piled top fs f.saved

namespace Piled

variable {top : Int} {fs : List Pushed} {r : Registers}

theorem le (h : Piled top fs r) : r.sp ≤ top := by
  induction fs generalizing r with
  | nil =>
    obtain rfl : r = ⟨top, top⟩ := h
    exact Int.le_refl _
  | cons f fs ih =>
    obtain ⟨rfl, le, high, -, rest⟩ := h
    exact Int.le_trans le (high ▸ ih rest)

/-- Frames are between the registers and the end of memory. -/
theorem inside (h : Piled top fs r) : ∀ f ∈ fs, f.region.Inside r.sp top := by
  induction fs generalizing r with
  | nil => simp
  | cons f fs ih =>
    obtain ⟨rfl, le, high, -, rest⟩ := h
    intro g hg
    rcases List.mem_cons.1 hg with rfl | hg
    · exact ⟨Int.le_refl _, le, high ▸ rest.le⟩
    · exact (ih rest g hg).mono (high ▸ le) (Int.le_refl _)

theorem apart (h : Piled top fs r) : (fs.map Pushed.region).Pairwise Region.Apart := by
  induction fs generalizing r with
  | nil => exact .nil
  | cons f fs ih =>
    obtain ⟨-, -, high, -, rest⟩ := h
    refine List.pairwise_cons.2 ⟨fun g hg => ?_, ih rest⟩
    obtain ⟨f', hf', rfl⟩ := List.mem_map.1 hg
    exact .inl (high ▸ (rest.inside f' hf').1)

/-- Below a frame are the frames that it was pushed on. -/
theorem below {above : List Pushed} {f : Pushed} (h : Piled top (above ++ f :: fs) r) :
    Piled top fs f.saved := by
  induction above generalizing r with
  | nil => exact h.2.2.2.2
  | cons g above ih => exact ih h.2.2.2.2

end Piled

/-! ## Sessions -/

inductive Operation where
  | allocateStatic (label : String) (size : Int)
  | pushFrame (size : Int)
  | load (address : Int)
  | store (address : Int) (v : Value)
  /-- Gives the youngest frame up. -/
  | restore
  deriving DecidableEq

/-- The size that the operation asks for can be rounded up. -/
def Operation.Rounds : Operation → Prop
  | .allocateStatic _ size | .pushFrame size => ∃ k, Word.roundUp (max size 0) = .ok k
  | .load _ | .store _ _ | .restore => True

structure Session where
  memory : Memory
  /-- The latest first. -/
  blocks : List Region := []
  /-- The youngest first. -/
  frames : List Pushed := []
  deriving DecidableEq

namespace Session

/-- A memory of so many words in which nothing is reserved. -/
def start (capacity : Nat) : Session := { memory := .ofCapacity capacity }

/-- Performs one operation. Each `restore` gets the registers that were read just before the
youngest live frame was pushed; without a live frame there is nothing to restore. -/
def perform (op : Operation) : EStateM (Halt Fault) Session Unit := fun s =>
  match op with
  | .allocateStatic label size =>
    match Memory.allocateStatic label size s.memory with
    | .ok a m =>
      .ok () { s with memory := m, blocks := ⟨a, a + Word.rounded (max size 0)⟩ :: s.blocks }
    | .error h m => .error h { s with memory := m }
  | .pushFrame size =>
    match Memory.pushFrame size s.memory with
    | .ok fp m =>
      let region : Region := ⟨fp, fp + Word.rounded (max size 0)⟩
      .ok () { s with memory := m, frames := ⟨region, s.memory.registers⟩ :: s.frames }
    | .error h m => .error h { s with memory := m }
  | .load a =>
    match s.memory.load a with
    | .ok _ => .ok () s
    | .error f => .error (.fault f) s
  | .store a v =>
    match Memory.store a v s.memory with
    | .ok () m => .ok () { s with memory := m }
    | .error h m => .error h { s with memory := m }
  | .restore =>
    match s.frames with
    | [] => .ok () s
    | f :: fs => .ok () { s with memory := s.memory.restore f.saved, frames := fs }

/-- The session after operations, those that fail included. -/
def after (s : Session) : List Operation → Session
  | [] => s
  | op :: ops =>
    match perform op s with
    | .ok () s' | .error _ s' => s'.after ops

/-- What holds between operations. -/
structure Sound (capacity : Nat) (s : Session) : Prop where
  count : s.memory.words.size = capacity
  nonneg : 0 ≤ s.memory.staticTop
  room : s.memory.staticTop ≤ s.memory.sp
  topAligned : Word.bytes ∣ s.memory.staticTop
  spAligned : Word.bytes ∣ s.memory.sp
  blocksApart : s.blocks.Pairwise Region.Apart
  blocksInside : ∀ b ∈ s.blocks, b.Inside 0 s.memory.staticTop
  piled : Piled (capacity * Word.bytes) s.frames s.memory.registers

theorem start_sound (capacity : Nat) : (start capacity).Sound capacity where
  count := by simp [start, ofCapacity]
  nonneg := Int.le_refl _
  room := Int.mul_nonneg (by omega) (by decide)
  topAligned := ⟨0, rfl⟩
  spAligned := Int.dvd_mul_left ..
  blocksApart := .nil
  blocksInside := by simp [start]
  piled := rfl

/-- The failures of operations on memory. -/
inductive Refusal : Halt Fault → Prop
  | outOfMemory (requested available : Int) : Refusal (.fault (.outOfMemory requested available))
  | stackOverflow (sp : Int) : Refusal (.fault (.stackOverflow sp))
  | invalidAddress (address : Int) : Refusal (.fault (.invalidAddress address))

section

variable {capacity : Nat} {s : Session}

theorem Sound.allocated (h : s.Sound capacity) (label : String) {k : Int} (nonneg : 0 ≤ k)
    (aligned : Word.bytes ∣ k) (room : s.memory.staticTop + k ≤ s.memory.sp) :
    Sound capacity { s with
      memory := s.memory.reserved label k
      blocks := ⟨s.memory.staticTop, s.memory.staticTop + k⟩ :: s.blocks } where
  count := h.count
  nonneg := Int.add_nonneg h.nonneg nonneg
  room := room
  topAligned := Int.dvd_add h.topAligned aligned
  spAligned := h.spAligned
  blocksApart := List.pairwise_cons.2 ⟨fun b hb => .inr (h.blocksInside b hb).2.2, h.blocksApart⟩
  blocksInside := by
    have low := h.nonneg
    have more := Int.le_add_of_nonneg_right (a := s.memory.staticTop) nonneg
    refine List.forall_mem_cons.2 ⟨⟨low, more, Int.le_refl _⟩, fun b hb => ?_⟩
    exact (h.blocksInside b hb).mono (Int.le_refl _) more
  piled := h.piled

theorem Sound.pushed (h : s.Sound capacity) {m : Memory} {k : Int} (nonneg : 0 ≤ k)
    (aligned : Word.bytes ∣ k) (room : s.memory.staticTop ≤ s.memory.sp - k)
    (opened : Opened s.memory m k []) :
    Sound capacity { s with
      memory := m
      frames := ⟨⟨s.memory.sp - k, s.memory.sp - k + k⟩, s.memory.registers⟩ :: s.frames } where
  count := opened.count.trans h.count
  nonneg := opened.staticTop ▸ h.nonneg
  room := by rw [opened.staticTop, opened.sp]; exact room
  topAligned := opened.staticTop ▸ h.topAligned
  spAligned := opened.sp ▸ Int.dvd_sub h.spAligned aligned
  blocksApart := h.blocksApart
  blocksInside := opened.staticTop ▸ h.blocksInside
  piled := by
    refine ⟨?_, Int.le_add_of_nonneg_right nonneg, Int.sub_add_cancel .., h.spAligned, h.piled⟩
    rw [Memory.registers, opened.fp, opened.sp]

theorem Sound.restored (h : s.Sound capacity) {f : Pushed} {fs : List Pushed}
    (frames : s.frames = f :: fs) :
    Sound capacity { s with memory := s.memory.restore f.saved, frames := fs } := by
  obtain ⟨current, le, high, aligned, rest⟩ := frames ▸ h.piled
  have sp : s.memory.sp = f.region.low := congrArg Registers.sp current
  refine ⟨h.count, h.nonneg, ?_, h.topAligned, aligned, h.blocksApart, h.blocksInside, rest⟩
  exact Int.le_trans h.room (by rw [sp]; exact Int.le_trans le (Int.le_of_eq high))

variable (fits : Word.Fits (capacity * Word.bytes))

include fits

theorem Sound.stacked (h : s.Sound capacity) : s.memory.Stacked where
  nonneg := h.nonneg
  room := h.room
  le := by
    have le : s.memory.sp ≤ capacity * Word.bytes := h.piled.le
    rwa [Memory.size, h.count]
  fits := by rwa [Memory.size, h.count]
  aligned := h.spAligned

/-- One operation keeps a session sound, or fails and changes nothing. -/
theorem perform_sound (h : s.Sound capacity) {op : Operation} (rounds : op.Rounds) :
    match perform op s with
    | .ok () s' => s'.Sound capacity
    | .error halt s' => s' = s ∧ Refusal halt := by
  have stacked := h.stacked fits
  cases op with
  | allocateStatic label size =>
    obtain ⟨k, hk⟩ := rounds
    obtain ⟨-, rfl⟩ := Word.roundUp_eq_ok.1 hk
    obtain ⟨low, -, aligned⟩ := Word.rounded_bounds (max size 0)
    rcases Int.lt_or_le s.memory.sp (s.memory.staticTop + Word.rounded (max size 0)) with
      full | room
    · simp only [perform, allocateStatic_full label stacked hk full]
      exact ⟨trivial, .outOfMemory _ _⟩
    · simp only [perform, allocateStatic_ok label stacked hk room]
      exact h.allocated label (by omega) aligned room
  | pushFrame size =>
    obtain ⟨k, hk⟩ := rounds
    obtain ⟨-, rfl⟩ := Word.roundUp_eq_ok.1 hk
    obtain ⟨low, -, aligned⟩ := Word.rounded_bounds (max size 0)
    rcases Int.lt_or_le (s.memory.sp - Word.rounded (max size 0)) s.memory.staticTop with
      full | room
    · simp only [perform, pushFrame_full stacked hk full]
      exact ⟨trivial, .stackOverflow _⟩
    · obtain ⟨m, pushed, opened⟩ := pushFrame_ok stacked hk room
      simp only [perform, pushed]
      exact h.pushed (by omega) aligned room opened
  | load a =>
    simp only [perform, load]
    cases (s.memory.index? a).bind (s.memory.words[·]?) with
    | some v => exact h
    | none => exact ⟨rfl, .invalidAddress a⟩
  | store a v =>
    simp only [perform, store]
    cases s.memory.index? a with
    | some i =>
      exact ⟨by simpa using h.count, h.nonneg, h.room, h.topAligned, h.spAligned, h.blocksApart,
        h.blocksInside, h.piled⟩
    | none => exact ⟨rfl, .invalidAddress a⟩
  | restore =>
    simp only [perform]
    cases frames : s.frames with
    | nil => exact h
    | cons f fs => exact h.restored frames

theorem after_sound (h : s.Sound capacity) {ops : List Operation} (rounds : ∀ op ∈ ops, op.Rounds) :
    (s.after ops).Sound capacity := by
  induction ops generalizing s with
  | nil => exact h
  | cons op ops ih =>
    obtain ⟨first, rest⟩ := List.forall_mem_cons.1 rounds
    have step := perform_sound fits h first
    simp only [after]
    cases result : perform op s with
    | ok u s' =>
      rw [result] at step
      exact ih step rest
    | error halt s' =>
      rw [result] at step
      exact ih (step.1 ▸ h) rest

end

/-- What a caller can rely on between operations. -/
structure Consistent (capacity : Nat) (s : Session) : Prop where
  count : s.memory.words.size = capacity
  nonneg : 0 ≤ s.memory.staticTop
  room : s.memory.staticTop ≤ s.memory.sp
  le : s.memory.sp ≤ capacity * Word.bytes
  topAligned : Word.bytes ∣ s.memory.staticTop
  spAligned : Word.bytes ∣ s.memory.sp
  blocksApart : s.blocks.Pairwise Region.Apart
  blocksInside : ∀ b ∈ s.blocks, b.Inside 0 s.memory.staticTop
  framesApart : (s.frames.map Pushed.region).Pairwise Region.Apart
  framesInside : ∀ f ∈ s.frames, f.region.Inside s.memory.staticTop (capacity * Word.bytes)

theorem Sound.consistent {capacity : Nat} {s : Session} (h : s.Sound capacity) :
    s.Consistent capacity :=
  { h with
    le := h.piled.le
    framesApart := h.piled.apart
    framesInside := fun f hf => (h.piled.inside f hf).mono h.room (Int.le_refl _) }

end Session

/-- **The regions of memory never overlap, and a failed operation changes nothing.** In any session
with a memory that can exist, in which all sizes can be rounded up, the number of words stays, the
blocks of static data are apart and below the top of static data, and the live frames are apart and
above it. A frame that is pushed has zeros in all its words, and every other word stays. An
operation that fails leaves the whole session as it was. -/
theorem session_regions {capacity : Nat} (exist : checkCapacity capacity = .ok ())
    {ops : List Operation} (rounds : ∀ op ∈ ops, op.Rounds) :
    ((Session.start capacity).after ops).Consistent capacity ∧
    (∀ size fp m, (Operation.pushFrame size).Rounds →
      pushFrame size ((Session.start capacity).after ops).memory = .ok fp m →
      (∀ a, fp ≤ a → a < fp + Word.rounded (max size 0) → Word.bytes ∣ a → m.load a = .ok .zero) ∧
      (∀ a, a < fp ∨ fp + Word.rounded (max size 0) ≤ a →
        m.load a = ((Session.start capacity).after ops).memory.load a) ∧
      m.words.size = capacity) ∧
    ∀ op, op.Rounds → ∀ halt s',
      Session.perform op ((Session.start capacity).after ops) = .error halt s' →
      s' = (Session.start capacity).after ops ∧ Session.Refusal halt := by
  have fits := Word.fits_of_le_blockLimit (checkCapacity_eq_ok.1 exist)
  have sound := Session.after_sound fits (Session.start_sound capacity) rounds
  refine ⟨sound.consistent, fun size fp m rounds pushed => ?_, fun op rounds halt s' failed => ?_⟩
  · obtain ⟨k, hk⟩ := rounds
    obtain ⟨-, rfl⟩ := Word.roundUp_eq_ok.1 hk
    have stacked := sound.stacked fits
    rcases Int.lt_or_le (((Session.start capacity).after ops).memory.sp - Word.rounded (max size 0))
      ((Session.start capacity).after ops).memory.staticTop with full | room
    · rw [pushFrame_full stacked hk full] at pushed
      cases pushed
    · obtain ⟨m', pushed', opened⟩ := pushFrame_ok stacked hk room
      rw [pushed'] at pushed
      cases pushed
      refine ⟨fun a low high aligned => ?_, fun a ha => ?_, ?_⟩
      · exact opened.zeros a (by simpa using low) (by omega) aligned
      · exact opened.others a (by omega)
      · exact opened.count.trans sound.count
  · have step := Session.perform_sound fits sound rounds
    rw [failed] at step
    exact step

/-- A block of static data, a frame, a frame that does not fit, another frame, and one given up. -/
def Session.refusedFrame : List Operation :=
  [.allocateStatic "x" 12, .pushFrame 20, .store 104 (.int 7), .pushFrame 1000,
    .pushFrame 8, .restore]

theorem session_regions_refusedFrame :
    ((Session.start 16).after Session.refusedFrame).frames = [⟨⟨104, 128⟩, ⟨128, 128⟩⟩] ∧
    ((Session.start 16).after Session.refusedFrame).Consistent 16 := by
  refine ⟨by decide, (session_regions (checkCapacity_eq_ok.2 (by decide)) ?_).1⟩
  simp only [Session.refusedFrame, List.forall_mem_cons, Operation.Rounds]
  exact ⟨⟨16, rfl⟩, ⟨24, rfl⟩, trivial, ⟨1000, rfl⟩, ⟨8, rfl⟩, trivial, by simp⟩

end PinsBackend.Memory
