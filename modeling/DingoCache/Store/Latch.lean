import Mathlib

/-!
# Watermark Pressure

`NewPutDemandLatch` of `src/cache/new_put_demand_latch.h`, as the ticks of the reclaimer
in `src/cache/disk_slab_store.cc` drive it.

- `activeIn_iff`, `active_iff`, `pressureSeen_iff`: what one tick makes of the latch.
-/

namespace DingoCache.Store

/-- `evict_high_bytes_` and `evict_low_bytes_`. -/
structure Watermarks where
  high : Nat
  low : Nat
  low_le : low ≤ high

structure NewPutDemandLatch where
  active : Bool := false
  pressureSeen : Bool := false
  quietTicks : Nat := 0
  currentIntervalBytes : Nat := 0
  previousIntervalBytes : Nat := 0
deriving DecidableEq

def kQuietTickLimit : Nat := 128

namespace NewPutDemandLatch

def beginTick (l : NewPutDemandLatch) (usedBytes highBytes lowBytes newlyAdmittedBytes : Nat) :
    NewPutDemandLatch :=
  let l := { l with
    previousIntervalBytes := l.currentIntervalBytes
    currentIntervalBytes := newlyAdmittedBytes }
  let l := if usedBytes = 0 then { l with pressureSeen := false, quietTicks := 0 } else l
  if highBytes < usedBytes then { l with pressureSeen := true, active := true, quietTicks := 0 }
  else if newlyAdmittedBytes ≠ 0 then
    let l := { l with quietTicks := 0 }
    if l.pressureSeen = true ∧ lowBytes < usedBytes then { l with active := true } else l
  else if l.pressureSeen then
    if l.quietTicks < kQuietTickLimit then { l with quietTicks := l.quietTicks + 1 } else l
  else { l with quietTicks := 0 }

def endTick (l : NewPutDemandLatch) (usedBytes lowBytes : Nat) : NewPutDemandLatch :=
  let l := if usedBytes ≤ lowBytes ∧ l.currentIntervalBytes = 0 ∧ l.previousIntervalBytes = 0 then
      { l with active := false }
    else l
  if l.pressureSeen = true ∧ l.active = false ∧ l.quietTicks = kQuietTickLimit then
    { l with pressureSeen := false, quietTicks := 0 }
  else l

end NewPutDemandLatch

/-- What one run of `ReclaimTick` sees: the usage before and after its evictions, and the bytes
committed since the last one. -/
structure Tick where
  usedBytes : Nat
  newPutBytes : Nat
  usedAfter : Nat

variable (w : Watermarks) {t : Tick} {ts : List Tick} {l : NewPutDemandLatch}

def begun (l : NewPutDemandLatch) (t : Tick) : NewPutDemandLatch :=
  l.beginTick t.usedBytes w.high w.low t.newPutBytes

/-- The latch after the ticks, the newest one first. Both branches of `ReclaimTick` end the tick
they began. -/
def latchAfter : List Tick → NewPutDemandLatch
  | [] => {}
  | t :: ts => (begun w (latchAfter ts) t).endTick t.usedAfter w.low

/-- The latch is active in the tick `t` that follows `ts`. -/
def ActiveIn (t : Tick) (ts : List Tick) : Prop := (begun w (latchAfter w ts) t).active = true

def newestBytes : List Tick → Nat
  | [] => 0
  | t :: _ => t.newPutBytes

/-- The newest tick ends at or below the low watermark, and neither it nor the one before saw new
bytes. -/
def Settles : List Tick → Prop
  | [] => False
  | t :: ts => t.usedAfter ≤ w.low ∧ t.newPutBytes = 0 ∧ newestBytes ts = 0

/-- How many ticks in a row, up to the newest, saw neither new bytes nor usage above the high
watermark. -/
def quietRun (ts : List Tick) : Nat :=
  (ts.takeWhile fun t => decide (t.newPutBytes = 0 ∧ t.usedBytes ≤ w.high)).length

/-! ## One tick -/

theorem begun_active : (begun w l t).active = true ↔ l.active = true ∨ w.high < t.usedBytes ∨
      (w.low < t.usedBytes ∧ t.newPutBytes ≠ 0 ∧ l.pressureSeen = true) := by
  have hle := w.low_le
  unfold begun NewPutDemandLatch.beginTick
  grind

theorem begun_pressureSeen : (begun w l t).pressureSeen = true ↔
      w.high < t.usedBytes ∨ (l.pressureSeen = true ∧ t.usedBytes ≠ 0) := by
  unfold begun NewPutDemandLatch.beginTick
  grind

theorem begun_quietTicks (h : (begun w l t).pressureSeen = true) :
    (begun w l t).quietTicks = if t.newPutBytes = 0 ∧ t.usedBytes ≤ w.high then
      (if l.quietTicks < 128 then l.quietTicks + 1 else l.quietTicks) else 0 := by
  revert h
  unfold begun NewPutDemandLatch.beginTick kQuietTickLimit
  grind

theorem begun_bytes : (begun w l t).currentIntervalBytes = t.newPutBytes ∧
    (begun w l t).previousIntervalBytes = l.currentIntervalBytes := by
  unfold begun NewPutDemandLatch.beginTick
  grind

/-- What the latch knows of the history. -/
structure Knows (ts : List Tick) (l : NewPutDemandLatch) : Prop where
  current : l.currentIntervalBytes = newestBytes ts
  quiet : l.pressureSeen = true → l.quietTicks = min 128 (quietRun w ts)

theorem quietRun_cons : quietRun w (t :: ts) =
    if t.newPutBytes = 0 ∧ t.usedBytes ≤ w.high then quietRun w ts + 1 else 0 := by
  unfold quietRun
  rw [List.takeWhile_cons]
  by_cases h : t.newPutBytes = 0 ∧ t.usedBytes ≤ w.high
  · simp [h]
  · simp [h]

theorem Knows.begun (h : Knows w ts l) (hp : (begun w l t).pressureSeen = true) :
    (Store.begun w l t).quietTicks = min 128 (quietRun w (t :: ts)) := by
  rw [begun_quietTicks w hp, quietRun_cons]
  have hquiet := h.quiet
  rw [begun_pressureSeen] at hp
  grind

theorem latchAfter_knows (ts : List Tick) : Knows w ts (latchAfter w ts) := by
  induction ts with
  | nil => exact ⟨rfl, fun h => by cases h⟩
  | cons t ts ih =>
    obtain ⟨hcur, -⟩ := begun_bytes w (l := latchAfter w ts) (t := t)
    have hquiet := ih.begun w (t := t)
    rw [latchAfter]
    unfold NewPutDemandLatch.endTick
    constructor
    · grind [newestBytes]
    · grind

/-! ## Histories -/

theorem active_iff (t : Tick) (ts : List Tick) :
    (latchAfter w (t :: ts)).active = true ↔ ActiveIn w t ts ∧ ¬Settles w (t :: ts) := by
  obtain ⟨hcur, hprev⟩ := begun_bytes w (l := latchAfter w ts) (t := t)
  have hnew := (latchAfter_knows w ts).current
  rw [latchAfter]
  unfold NewPutDemandLatch.endTick ActiveIn Settles
  grind

theorem activeIn_iff (t : Tick) (ts : List Tick) :
    ActiveIn w t ts ↔ (latchAfter w ts).active = true ∨ w.high < t.usedBytes ∨
      (w.low < t.usedBytes ∧ t.newPutBytes ≠ 0 ∧ (latchAfter w ts).pressureSeen = true) :=
  begun_active w

/-- Pressure is remembered after a tick exactly if it was seen before or in it, and neither an empty
store nor the quiet ticks make the latch drop it. -/
theorem pressureSeen_iff (t : Tick) (ts : List Tick) :
    (latchAfter w (t :: ts)).pressureSeen = true ↔
      (w.high < t.usedBytes ∨ ((latchAfter w ts).pressureSeen = true ∧ t.usedBytes ≠ 0)) ∧
      ¬((latchAfter w (t :: ts)).active = false ∧ 128 ≤ quietRun w (t :: ts)) := by
  have hquiet := (latchAfter_knows w ts).begun w (t := t)
  rw [← begun_pressureSeen, latchAfter]
  unfold NewPutDemandLatch.endTick kQuietTickLimit
  grind

theorem activeIn_of_pressure {earlier later : List Tick} (hhigh : w.high < t.usedBytes)
    (hnot : ∀ l, l <:+ later → ¬Settles w (l ++ t :: earlier)) (u : Tick) :
    ActiveIn w u (later ++ t :: earlier) := by
  refine (activeIn_iff w _ _).mpr (Or.inl ?_)
  induction later with
  | nil => exact (active_iff w _ _).mpr ⟨(activeIn_iff w _ _).mpr (Or.inr (Or.inl hhigh)),
      hnot [] List.suffix_rfl⟩
  | cons v later ih =>
    have hbefore := ih fun l hl => hnot l (hl.trans (List.suffix_cons v later))
    exact (active_iff w _ _).mpr ⟨(activeIn_iff w _ _).mpr (Or.inl hbefore),
      hnot (v :: later) List.suffix_rfl⟩

/-- Watermark pressure has hysteresis and expires. A tick above the high watermark makes the latch
active, in that tick and in every later one up to and including the first that settles; a tick
leaves the latch active exactly if it was active in the tick and the tick does not settle; an
inactive latch becomes active only above the high watermark, or above the low one in a tick with new
bytes while pressure is remembered; and pressure is dropped exactly when a tick begins with an empty
store, or when the latch is inactive at the end of a tick that is at least the 128th quiet one in a
row. -/
theorem watermark_pressure (w : Watermarks) :
    (∀ (t : Tick) (earlier : List Tick), w.high < t.usedBytes → ActiveIn w t earlier ∧
      ∀ (later : List Tick) (u : Tick), (∀ l, l <:+ later → ¬Settles w (l ++ t :: earlier)) →
        ActiveIn w u (later ++ t :: earlier)) ∧
    (∀ (t : Tick) (ts : List Tick),
      (latchAfter w (t :: ts)).active = true ↔ ActiveIn w t ts ∧ ¬Settles w (t :: ts)) ∧
    (∀ (t : Tick) (ts : List Tick), ActiveIn w t ts → (latchAfter w ts).active = false →
      w.high < t.usedBytes ∨
        (w.low < t.usedBytes ∧ t.newPutBytes ≠ 0 ∧ (latchAfter w ts).pressureSeen = true)) ∧
    ∀ (t : Tick) (ts : List Tick),
      if w.high < t.usedBytes ∨ (latchAfter w ts).pressureSeen = true then
        (latchAfter w (t :: ts)).pressureSeen = false ↔ t.usedBytes = 0 ∨
          ((latchAfter w (t :: ts)).active = false ∧ 128 ≤ quietRun w (t :: ts))
      else (latchAfter w (t :: ts)).pressureSeen = false := by
  refine ⟨fun t earlier hhigh => ⟨?_, fun later u hnot => ?_⟩, active_iff w,
    fun t ts hin hoff => ?_,
    fun t ts => ?_⟩
  · exact (activeIn_iff w t earlier).mpr (Or.inr (Or.inl hhigh))
  · exact activeIn_of_pressure w hhigh hnot u
  · rcases (activeIn_iff w t ts).mp hin with hon | hcause
    · cases hoff.symm.trans hon
    · exact hcause
  · have hseen := pressureSeen_iff w t ts
    split
    · next h =>
      rw [← Bool.not_eq_true, hseen]
      grind
    · next h =>
      rw [← Bool.not_eq_true, hseen]
      grind

end DingoCache.Store
