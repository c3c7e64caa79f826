import DingoCache.Library.FlatFile

/-!
# Reading a Byte String from the Front

A reader takes what it needs from the front of a byte string and answers the rest,
or fails when the string is too short.
-/

namespace DingoCache.Library

open List Option

variable {α β γ : Type*} {n v : Nat} {rest bs : List UInt8}

/-! ## Readers -/

/-- The next `n` bytes. -/
def readBytes (n : Nat) (bs : List UInt8) : Option (List UInt8 × List UInt8) :=
  if n ≤ bs.length then some (bs.take n, bs.drop n) else none

/-- The number in the next `n` bytes. -/
def readLE (n : Nat) (bs : List UInt8) : Option (Nat × List UInt8) :=
  (readBytes n bs).map (Prod.map getLE id)

/-- The next `n` entries. -/
def readMany (f : List UInt8 → Option (α × List UInt8)) :
    Nat → List UInt8 → Option (List α × List UInt8)
  | 0, bs => some ([], bs)
  | n + 1, bs => do
    let (a, bs) ← f bs
    let (as, bs) ← readMany f n bs
    some (a :: as, bs)

/-- One entry for each element, which it updates. `none` is the string at which the reader failed.
-/
def readEach (f : α → List UInt8 → Option (α × List UInt8)) :
    List α → List UInt8 → List α × Option (List UInt8)
  | [], bs => ([], some bs)
  | a :: as, bs =>
    match f a bs with
    | none => (a :: as, none)
    | some (a', bs') => ((a' :: (readEach f as bs').1), (readEach f as bs').2)

/-! ## Reading what was written -/

theorem readBytes_append {as : List UInt8} (h : as.length = n) :
    readBytes n (as ++ rest) = some (as, rest) := by
  subst h
  simp [readBytes]

theorem readLE_append (n v : Nat) (rest : List UInt8) :
    readLE n (putLE n v ++ rest) = some (v % 256 ^ n, rest) := by
  rw [readLE, readBytes_append (length_putLE n v), map_some, Prod.map_apply, getLE_putLE]
  rfl

theorem readLE_putLE (n : Nat) (hv : v < 256 ^ n) (rest : List UInt8) :
    readLE n (putLE n v ++ rest) = some (v, rest) := by
  rw [readLE_append, Nat.mod_eq_of_lt hv]

theorem readLE_putLE_end (n : Nat) (hv : v < 256 ^ n) : readLE n (putLE n v) = some (v, []) := by
  have h := readLE_putLE n hv []
  rwa [append_nil] at h

theorem readMany_flatMap {f : List UInt8 → Option (α × List UInt8)} {enc : β → List UInt8}
    (out : β → α) {bs : List β} (h : ∀ b ∈ bs, ∀ rest, f (enc b ++ rest) = some (out b, rest))
    (rest : List UInt8) :
    readMany f bs.length (bs.flatMap enc ++ rest) = some (bs.map out, rest) := by
  induction bs with
  | nil => rfl
  | cons b bs ih =>
    have htail := ih fun c hc => h c (mem_cons_of_mem b hc)
    simp [readMany, h b mem_cons_self, htail]

/-- Lists of records that can be read back are told apart by their bytes. -/
theorem map_eq_of_flatMap_eq {f : List UInt8 → Option (α × List UInt8)} {enc : β → List UInt8}
    (out : β → α) (hend : f [] = none) {bs cs : List β}
    (hb : ∀ b ∈ bs, ∀ rest, f (enc b ++ rest) = some (out b, rest))
    (hc : ∀ c ∈ cs, ∀ rest, f (enc c ++ rest) = some (out c, rest))
    (h : bs.flatMap enc = cs.flatMap enc) : bs.map out = cs.map out := by
  induction bs generalizing cs with
  | nil =>
    cases cs with
    | nil => rfl
    | cons c cs =>
      have hread := hc c mem_cons_self (cs.flatMap enc)
      rw [← flatMap_cons, ← h, flatMap_nil, hend] at hread
      exact nomatch hread
  | cons b bs ih =>
    have hread := hb b mem_cons_self (bs.flatMap enc)
    rw [← flatMap_cons, h] at hread
    cases cs with
    | nil => exact nomatch hend.symm.trans hread
    | cons c cs =>
      rw [flatMap_cons, hc c mem_cons_self, some.injEq, Prod.mk.injEq] at hread
      rw [map_cons, map_cons, hread.1, ih (fun x hx => hb x (mem_cons_of_mem b hx))
        (fun x hx => hc x (mem_cons_of_mem c hx)) hread.2.symm]

section Each

variable {f : α → List UInt8 → Option (α × List UInt8)} {enc : β → List UInt8} {g out : β → α}

theorem readEach_append (xs ys : List α) (bs : List UInt8) : readEach f (xs ++ ys) bs =
      match readEach f xs bs with
      | (xs', none) => (xs' ++ ys, none)
      | (xs', some bs') => (xs' ++ (readEach f ys bs').1, (readEach f ys bs').2) := by
  induction xs generalizing bs with
  | nil => rfl
  | cons x xs ih =>
    rw [cons_append, readEach, readEach]
    cases f x bs with
    | none => rfl
    | some r =>
      obtain ⟨x', bs'⟩ := r
      simp only [ih]
      cases hx : readEach f xs bs' with
      | mk xs' r' => cases r' <;> rfl

theorem readEach_flatMap {bs : List β}
    (h : ∀ b ∈ bs, ∀ rest, f (g b) (enc b ++ rest) = some (out b, rest)) (rest : List UInt8) :
    readEach f (bs.map g) (bs.flatMap enc ++ rest) = (bs.map out, some rest) := by
  induction bs with
  | nil => rfl
  | cons b bs ih =>
    rw [flatMap_cons, append_assoc, map_cons, readEach, h b mem_cons_self, map_cons]
    simp only [ih fun c hc => h c (mem_cons_of_mem b hc)]

theorem readEach_stop {a : α} {as : List α} (h : f a bs = none) :
    readEach f (a :: as) bs = (a :: as, none) := by
  rw [readEach, h]

end Each

/-- Decoding an encoded value succeeds if and only if the value is admissible, and then answers that
value. -/
def ExactOn (encode : α → List UInt8) (decode : List UInt8 → Option α)
    (sized admissible : α → Prop) : Prop :=
  ∀ a, sized a → ((decode (encode a)).isSome = true ↔ admissible a) ∧
    ∀ b, decode (encode a) = some b → b = a

theorem exactOn_of_ite {encode : α → List UInt8} {decode : List UInt8 → Option α}
    {sized admissible : α → Prop} [DecidablePred admissible]
    (h : ∀ a, sized a → decode (encode a) = if admissible a then some a else none) :
    ExactOn encode decode sized admissible := by
  intro a ha
  rw [h a ha]
  split
  · next hadm =>
    refine ⟨iff_of_true rfl hadm, fun b hb => ?_⟩
    exact (some.inj hb).symm
  · next hadm =>
    refine ⟨iff_of_false (by simp) hadm, fun b hb => ?_⟩
    cases hb

/-! ## Readers consume -/

/-- What is left is no longer than what was given. -/
def Consumes (f : List UInt8 → Option (α × List UInt8)) : Prop :=
  ∀ bs a rest, f bs = some (a, rest) → rest.length ≤ bs.length

theorem consumes_readBytes (n : Nat) : Consumes (readBytes n) := by
  intro bs a rest h
  unfold readBytes at h
  split at h
  · obtain ⟨-, rfl⟩ := Prod.mk.inj (some.inj h)
    simp
  · cases h

theorem length_of_readBytes {a : List UInt8} (h : readBytes n bs = some (a, rest)) :
    a.length = n ∧ rest.length + n = bs.length := by
  unfold readBytes at h
  split at h
  · next hn =>
    cases h
    simp only [length_take, length_drop]
    omega
  · cases h

theorem of_readLE (h : readLE n bs = some (v, rest)) :
    v < 256 ^ n ∧ rest.length + n = bs.length := by
  obtain ⟨⟨a, rest'⟩, hr, he⟩ := map_eq_some_iff.mp h
  cases he
  obtain ⟨hn, hl⟩ := length_of_readBytes hr
  exact ⟨hn ▸ getLE_lt a, hl⟩

theorem consumes_readLE (n : Nat) : Consumes (readLE n) :=
  fun _ _ _ h => by
    have := (of_readLE h).2
    omega

theorem consumes_some (a : α) : Consumes fun bs => some (a, bs) :=
  fun _ _ _ h => (Prod.mk.inj (some.inj h)).2 ▸ le_rfl

theorem consumes_none : Consumes fun _ => (none : Option (α × List UInt8)) :=
  fun _ _ _ h => absurd h (by simp)

theorem Consumes.bind {f : List UInt8 → Option (α × List UInt8)}
    {k : α × List UInt8 → Option (γ × List UInt8)} (hf : Consumes f)
    (hk : ∀ a, Consumes fun bs => k (a, bs)) : Consumes fun bs => (f bs).bind k := by
  intro bs c rest h
  obtain ⟨⟨a, bs'⟩, ha, h⟩ := bind_eq_some_iff.mp h
  exact (hk a bs' c rest h).trans (hf bs a bs' ha)

theorem Consumes.ite {p : Prop} [Decidable p] {f g : List UInt8 → Option (α × List UInt8)}
    (hf : Consumes f) (hg : Consumes g) : Consumes fun bs => if p then f bs else g bs := by
  split
  · exact hf
  · exact hg

theorem Consumes.readMany {f : List UInt8 → Option (α × List UInt8)} (hf : Consumes f) (n : Nat) :
    Consumes (Library.readMany f n) := by
  induction n with
  | zero => exact consumes_some []
  | succ n ih => exact hf.bind fun _ => ih.bind fun _ => consumes_some _

theorem readEach_consumes {f : α → List UInt8 → Option (α × List UInt8)} (hf : ∀ a, Consumes (f a))
    {as : List α} (h : (readEach f as bs).2 = some rest) : rest.length ≤ bs.length := by
  induction as generalizing bs with
  | nil => exact (some.inj h) ▸ le_rfl
  | cons a as ih =>
    rw [readEach] at h
    cases hr : f a bs with
    | none =>
      rw [hr] at h
      cases h
    | some r =>
      obtain ⟨a', bs'⟩ := r
      rw [hr] at h
      exact (ih h).trans (hf a bs a' bs' hr)

/-! ## Further bytes -/

def Forward (f : List UInt8 → Option (α × List UInt8)) : Prop :=
  ∀ bs a rest more, f bs = some (a, rest) → f (bs ++ more) = some (a, rest ++ more)

theorem forward_readBytes (n : Nat) : Forward (readBytes n) := by
  intro bs a rest more h
  have hlen := (length_of_readBytes h).2
  rw [readBytes, if_pos (by omega)] at h
  cases h
  rw [readBytes, length_append, if_pos (by omega), take_append_of_le_length (by omega),
    drop_append_of_le_length (by omega)]

theorem forward_some (a : α) : Forward fun bs => some (a, bs) := by
  intro bs a' rest more h
  cases h
  rfl

theorem Forward.bind {f : List UInt8 → Option (α × List UInt8)}
    {k : α × List UInt8 → Option (γ × List UInt8)} (hf : Forward f)
    (hk : ∀ a, Forward fun bs => k (a, bs)) : Forward fun bs => (f bs).bind k := by
  intro bs c rest more h
  obtain ⟨⟨a, bs'⟩, ha, h⟩ := bind_eq_some_iff.mp h
  beta_reduce
  rw [hf bs a bs' more ha]
  exact hk a bs' c rest more h

theorem forward_readLE (n : Nat) : Forward (readLE n) := by
  intro bs v rest more h
  obtain ⟨⟨a, rest'⟩, hr, he⟩ := map_eq_some_iff.mp h
  cases he
  rw [readLE, forward_readBytes n bs a rest' more hr]
  rfl

theorem Forward.readMany {f : List UInt8 → Option (α × List UInt8)} (hf : Forward f) (n : Nat) :
    Forward (Library.readMany f n) := by
  induction n with
  | zero => exact forward_some []
  | succ n ih => exact hf.bind fun _ => ih.bind fun _ => forward_some _

theorem Forward.none_of_cut {f : List UInt8 → Option (α × List UInt8)} {a : α}
    {more : List UInt8} (hf : Forward f) (h : f (bs ++ more) = some (a, [])) (hm : more ≠ []) :
    f bs = none := by
  by_contra hsome
  obtain ⟨⟨a', rest⟩, hr⟩ := ne_none_iff_exists'.mp hsome
  have hrest := congrArg Prod.snd (some.inj ((hf bs a' rest more hr).symm.trans h))
  exact hm (append_eq_nil_iff.mp hrest).2

/-! ## What readers answer -/

/-- Everything the reader answers satisfies `P`. -/
def Yields (P : α → Prop) (f : List UInt8 → Option (α × List UInt8)) : Prop :=
  ∀ bs a rest, f bs = some (a, rest) → P a

section Answers

variable {P : α → Prop} {Q : γ → Prop} {f : List UInt8 → Option (α × List UInt8)}

theorem yields_some {a : α} (h : P a) : Yields P fun bs => some (a, bs) :=
  fun _ _ _ hs => (Prod.mk.inj (some.inj hs)).1 ▸ h

theorem yields_none : Yields P fun _ => none :=
  fun _ _ _ h => absurd h (by simp)

theorem Yields.bind {k : α × List UInt8 → Option (γ × List UInt8)} (hf : Yields P f)
    (hk : ∀ a, P a → Yields Q fun bs => k (a, bs)) : Yields Q fun bs => (f bs).bind k := by
  intro bs c rest h
  obtain ⟨⟨a, bs'⟩, ha, h⟩ := bind_eq_some_iff.mp h
  exact hk a (hf bs a bs' ha) bs' c rest h

theorem Yields.ite {p : Prop} [Decidable p] {g : List UInt8 → Option (α × List UInt8)}
    (hf : p → Yields P f) (hg : ¬p → Yields P g) :
    Yields P fun bs => if p then f bs else g bs := by
  split
  · next h => exact hf h
  · next h => exact hg h

theorem yields_readBytes (n : Nat) : Yields (fun bs => bs.length = n) (readBytes n) :=
  fun _ _ _ h => (length_of_readBytes h).1

theorem yields_readLE (n : Nat) : Yields (· < 256 ^ n) (readLE n) :=
  fun _ _ _ h => (of_readLE h).1

theorem Yields.readMany (hf : Yields P f) (n : Nat) :
    Yields (fun as => as.length = n ∧ ∀ a ∈ as, P a) (Library.readMany f n) := by
  induction n with
  | zero => exact yields_some ⟨rfl, by simp⟩
  | succ n ih =>
    refine hf.bind fun a ha => ih.bind fun as has => yields_some ⟨?_, ?_⟩
    · exact congrArg (· + 1) has.1
    · exact forall_mem_cons.mpr ⟨ha, has.2⟩

/-- What one entry preserves of its element, the whole list preserves. -/
theorem readEach_forall {f : α → List UInt8 → Option (α × List UInt8)}
    (hf : ∀ a, P a → Yields P (f a)) {as : List α} (h : ∀ a ∈ as, P a) (bs : List UInt8) :
    ∀ a ∈ (readEach f as bs).1, P a := by
  induction as generalizing bs with
  | nil => exact h
  | cons a as ih =>
    rw [readEach]
    cases hr : f a bs with
    | none => exact h
    | some r =>
      obtain ⟨a', bs'⟩ := r
      refine forall_mem_cons.mpr ⟨hf a (h a mem_cons_self) bs a' bs' hr, ?_⟩
      exact ih (fun c hc => h c (mem_cons_of_mem a hc)) bs'

end Answers

/-! ## Cursors

A cursor reads a fixed string at a position and answers the position behind what it
read.  It tracks a reader if the two see the same, the reader on the rest of the string. -/

/-- The cursor `f` over `s` answers what the reader `g` answers on the rest of the string; `val` is
what the cursor's answer stands for. -/
def Tracks (s : List UInt8) (val : α → β) (f : Nat → Option (α × Nat))
    (g : List UInt8 → Option (β × List UInt8)) : Prop :=
  ∀ pos ≤ s.length, (f pos = none ∧ g (s.drop pos) = none) ∨
    ∃ a p, p ≤ s.length ∧ f pos = some (a, p) ∧ g (s.drop pos) = some (val a, s.drop p)

section Cursors

variable {δ : Type*} {s : List UInt8} {val : α → β}

theorem tracks_none : Tracks s val (fun _ => none) fun _ => none :=
  fun _ _ => .inl ⟨rfl, rfl⟩

theorem tracks_some (a : α) : Tracks s val (fun pos => some (a, pos)) fun bs => some (val a, bs) :=
  fun pos hpos => .inr ⟨a, pos, hpos, rfl, rfl⟩

theorem Tracks.bind {f : Nat → Option (α × Nat)} {g : List UInt8 → Option (β × List UInt8)}
    {w : γ → δ} {k : α × Nat → Option (γ × Nat)} {l : β × List UInt8 → Option (δ × List UInt8)}
    (hf : Tracks s val f g) (hk : ∀ a, Tracks s w (fun pos => k (a, pos)) fun bs => l (val a, bs)) :
    Tracks s w (fun pos => (f pos).bind k) fun bs => (g bs).bind l := by
  intro pos hpos
  beta_reduce
  rcases hf pos hpos with ⟨hf', hg'⟩ | ⟨a, p, hp, hf', hg'⟩
  · rw [hf', hg']
    exact .inl ⟨rfl, rfl⟩
  · rw [hf', hg']
    exact hk a p hp

theorem Tracks.ite {c : Prop} [Decidable c] {f f' : Nat → Option (α × Nat)}
    {g g' : List UInt8 → Option (β × List UInt8)} (hf : Tracks s val f g)
    (hf' : Tracks s val f' g') :
    Tracks s val (fun pos => if c then f pos else f' pos) fun bs => if c then g bs else g' bs := by
  split
  · exact hf
  · exact hf'

end Cursors

end DingoCache.Library
