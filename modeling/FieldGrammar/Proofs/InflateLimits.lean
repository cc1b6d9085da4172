import Mathlib
import FieldGrammar.Deflate
import FieldGrammar.Proofs.Reading

/-!
# What the limit on inflated data does

A stream that inflates under some limit inflates to the same octets under every limit that they
fit, and is too long under every other.  This is not evident from the algorithm, which learns late
that the output has outgrown the limit: it goes on with what is left of the current turn, and what
it meets there may be the end of its input.

The two runs are compared step by step.  As long as the output fits, they read from the same
source.  Later the run under the smaller limit reads from a restriction of the source, which gives
the same numbers until it ends, and its end says that the stream is too long.

## Main definitions

* `Deflate.Source.Restricts` — the source of the run under the limit
* `Deflate.ReadsAlike`, `Deflate.WritesAlike` — a step of both runs

## Main statements

* `Deflate.alikeIfFits_readBlocks` — all blocks
* `inflate_of_inflate` — what a stream inflates to under another limit
-/

namespace FieldGrammar

namespace Deflate

/-! ### Restricted sources -/

/-- The source `t` is `s`, or has only a first part of its bits and is too long after them.  The
latter happens only if the output, of the given size, exceeds the limit.  This is the invariant of
the run under the limit: nothing is cut off before the limit is crossed. -/
def Source.Restricts (limit size : Nat) (t s : Source) : Prop :=
  t = s ∨ (limit < size ∧ t.offset = s.offset ∧ t.rest <+: s.rest ∧ t.ending = .tooLong limit)

section

variable {limit limit' size : Nat} {s t : Source} {α β : Type}

theorem Source.Restricts.refl (limit size : Nat) (s : Source) : s.Restricts limit size s :=
  .inl rfl

/-- A restriction stays one when the output grows, because an output that exceeds the limit goes on
to exceed it. -/
theorem Source.Restricts.mono {more : Nat} (h : t.Restricts limit size s) (hle : size ≤ more) :
    t.Restricts limit more s :=
  h.imp_right fun ⟨hlimit, hrest⟩ => ⟨hlimit.trans_le hle, hrest⟩

/-- Where the second computation succeeds, the first one does with a related result, or the output
exceeds the limit and the first one says so.  Nothing is claimed where the second one fails, which
is what makes `Alike.error` immediate. -/
def Alike (limit size : Nat) (R : α → β → Prop) (x : Except InflateFault α)
    (y : Except InflateFault β) : Prop :=
  ∀ b, y = .ok b → (∃ a, x = .ok a ∧ R a b) ∨ (limit < size ∧ x = .error (.tooLong limit))

/-- The same value has been read, and a restriction of the rest of the source is left. -/
def SameRead (limit size : Nat) (p q : α × Source) : Prop :=
  p.1 = q.1 ∧ p.2.Restricts limit size q.2

/-- Reading gives the same from a restriction of the source. -/
abbrev ReadsAlike (limit size : Nat) (x y : Except InflateFault (α × Source)) : Prop :=
  Alike limit size (SameRead limit size) x y

theorem Alike.ok {R : α → β → Prop} {a : α} {b : β} (h : R a b) :
    Alike limit size R (.ok a) (.ok b) := by
  rintro _ ⟨⟩
  exact .inl ⟨a, rfl, h⟩

theorem Alike.error {R : α → β → Prop} {x : Except InflateFault α} {fault : InflateFault} :
    Alike limit size R x (.error fault) :=
  nofun

/-- Computations that go on alike from related results are alike as wholes.  If the first one has
stopped at the limit, its end is the end of the whole. -/
theorem Alike.bind {γ δ : Type} {R : α → β → Prop} {S : γ → δ → Prop}
    {x : Except InflateFault α} {y : Except InflateFault β} {f : α → Except InflateFault γ}
    {g : β → Except InflateFault δ} (hxy : Alike limit size R x y)
    (hfg : ∀ a b, R a b → Alike limit size S (f a) (g b)) :
    Alike limit size S (x >>= f) (y >>= g) := by
  intro d hd
  obtain ⟨b, hy, hg⟩ := bind_eq_ok_iff.1 hd
  obtain ⟨a, rfl, hab⟩ | ⟨hlimit, rfl⟩ := hxy b hy
  · exact hfg a b hab d hg
  · exact .inr ⟨hlimit, rfl⟩

/-- A computation goes on alike with what has been read alike. -/
theorem ReadsAlike.bind {γ δ : Type} {S : γ → δ → Prop} {x y : Except InflateFault (α × Source)}
    {f : α × Source → Except InflateFault γ} {g : α × Source → Except InflateFault δ}
    (hxy : ReadsAlike limit size x y)
    (hfg : ∀ a t s, t.Restricts limit size s → Alike limit size S (f (a, t)) (g (a, s))) :
    Alike limit size S (x >>= f) (y >>= g) := by
  refine Alike.bind hxy ?_
  rintro ⟨a, t⟩ ⟨_, s⟩ ⟨rfl, h⟩
  exact hfg a t s h

/-! ### Reading -/

namespace Source.Restricts

/-- The next bit is the same, unless the restriction has ended, and then its end says what `Alike`
allows. -/
theorem bit (h : t.Restricts limit size s) : ReadsAlike limit size t.bit s.bit := by
  obtain rfl | ⟨hlimit, hoffset, hprefix, hending⟩ := h
  · exact fun found hfound => .inl ⟨found, hfound, rfl, .refl limit size found.2⟩
  · obtain ⟨offset, rest, ending⟩ := t
    obtain ⟨_, more, ending'⟩ := s
    dsimp only at hoffset hending
    subst hoffset hending
    cases rest with
    | nil => exact fun _ _ => .inr ⟨hlimit, rfl⟩
    | cons b rest =>
        obtain ⟨tail, rfl⟩ := hprefix
        exact Alike.ok ⟨rfl, .inr ⟨hlimit, rfl, List.prefix_append rest tail, rfl⟩⟩

/-- The next number is the same, unless fewer bits are left than it takes.  The case is like that of
one bit, with the split of the rest in the place of its first bit. -/
theorem number (h : t.Restricts limit size s) (n : Nat) :
    ReadsAlike limit size (t.number n) (s.number n) := by
  obtain rfl | ⟨hlimit, hoffset, ⟨tail, hrest⟩, hending⟩ := h
  · exact fun found hfound => .inl ⟨found, hfound, rfl, .refl limit size found.2⟩
  · rw [Source.number, Source.number, ← hrest]
    cases hsplit : Bits.splitAt? n t.rest with
    | none => exact fun _ _ => .inr ⟨hlimit, congrArg Except.error hending⟩
    | some found =>
        obtain ⟨hfound, hlength⟩ := Bits.splitAt?_eq_some_iff.1 hsplit
        have hmore : Bits.splitAt? n (t.rest ++ tail) = some (found.1, found.2 ++ tail) :=
          Bits.splitAt?_eq_some_iff.2 ⟨by rw [hfound, List.append_assoc], hlength⟩
        rw [hmore]
        exact Alike.ok
          ⟨rfl, .inr ⟨hlimit, congrArg (· + n) hoffset, List.prefix_append _ _, hending⟩⟩

/-- Going on to a whole octet keeps a restriction one, since both sources stand at the same offset
and drop the same number of bits. -/
theorem align (h : t.Restricts limit size s) : t.align.Restricts limit size s.align := by
  obtain rfl | ⟨hlimit, hoffset, hprefix, hending⟩ := h
  · exact .refl limit size t.align
  · refine .inr ⟨hlimit, ?_, ?_, hending⟩
    · rw [Source.align, Source.align, hoffset]
    · rw [Source.align, Source.align, hoffset]
      exact hprefix.drop _

end Source.Restricts

/-- One bit of a symbol is read and the comparison made, as a bind.  The equation of the definition
has a match here, to which `ReadsAlike.bind` does not apply. -/
theorem PrefixCode.readFrom_cons (symbols : Array Nat) (longer : List (Array Nat))
    (word first : Nat) (s : Source) :
    readFrom (symbols :: longer) word first s =
      (s.bit >>= fun found =>
        if h : 2 * word + found.1.toNat - first < symbols.size ∧
            first ≤ 2 * word + found.1.toNat then
          .ok (symbols[2 * word + found.1.toNat - first], found.2)
        else readFrom longer (2 * word + found.1.toNat) (2 * (first + symbols.size)) found.2) := by
  rw [readFrom]
  cases s.bit <;> rfl

/-- A symbol is read alike.  The induction is on the lengths that code words may still have, of
which each bit takes one away. -/
theorem PrefixCode.readsAlike_readFrom (lengths : List (Array Nat)) {word first : Nat}
    (h : t.Restricts limit size s) :
    ReadsAlike limit size (readFrom lengths word first t) (readFrom lengths word first s) := by
  -- The word so far and both sources change with every bit.
  induction lengths generalizing word first s t with
  | nil => exact Alike.error
  | cons symbols longer ih =>
      rw [readFrom_cons, readFrom_cons]
      refine ReadsAlike.bind h.bit fun b t s h => ?_
      dsimp only
      split
      · exact Alike.ok ⟨rfl, h⟩
      · exact ih h

theorem PrefixCode.readsAlike_read (code : PrefixCode) (h : t.Restricts limit size s) :
    ReadsAlike limit size (code.read t) (code.read s) :=
  readsAlike_readFrom code.byLength h

/-- A base value with extra bits is a number added to the base, as a bind. -/
theorem extended_of_some {table : Array (Nat × Nat)} {index base extra : Nat}
    (hentry : table[index]? = some (base, extra)) (fault : InflateFault) (s : Source) :
    extended table index fault s =
      (s.number extra >>= fun found => .ok (base + found.1, found.2)) := by
  rw [extended, hentry]
  dsimp only
  cases s.number extra <;> rfl

/-- The lengths and distances of matches are read alike; an index that is not in the table is an
error on both sides. -/
theorem readsAlike_extended (table : Array (Nat × Nat)) (index : Nat) (fault : InflateFault)
    (h : t.Restricts limit size s) :
    ReadsAlike limit size (extended table index fault t) (extended table index fault s) := by
  cases hentry : table[index]? with
  | none =>
      rw [extended, extended, hentry]
      exact Alike.error
  | some entry =>
      rw [extended_of_some hentry, extended_of_some hentry]
      exact ReadsAlike.bind (h.number entry.2) fun n t s h => Alike.ok ⟨rfl, h⟩

theorem readsAlike_readShortLengths (n : Nat) (h : t.Restricts limit size s) :
    ReadsAlike limit size (readShortLengths n t) (readShortLengths n s) := by
  induction n generalizing s t with
  | zero => exact Alike.ok ⟨rfl, h⟩
  | succ n ih =>
      refine ReadsAlike.bind (h.number 3) fun length t s h => ?_
      exact ReadsAlike.bind (ih h) fun more t s h => Alike.ok ⟨rfl, h⟩

/-- The lengths of the code words are read alike, their repetitions included. -/
theorem readsAlike_readLengths (code : PrefixCode) (count fuel : Nat) (lengths : List Nat)
    (h : t.Restricts limit size s) :
    ReadsAlike limit size (readLengths code count fuel lengths t)
      (readLengths code count fuel lengths s) := by
  -- One symbol a step: a length, a repetition of the last length, or one of two repetitions of
  -- zero.
  induction fuel generalizing lengths s t with
  | zero => exact Alike.error
  | succ fuel ih =>
      rw [readLengths, readLengths]
      split
      · exact Alike.error
      split
      · exact Alike.ok ⟨rfl, h⟩
      refine ReadsAlike.bind (code.readsAlike_read h) fun symbol t s h => ?_
      dsimp only
      split
      · exact ih _ h
      split
      · cases lengths with
        | nil => exact Alike.error
        | cons last rest => exact ReadsAlike.bind (h.number 2) fun n t s h => ih _ h
      split
      · exact ReadsAlike.bind (h.number 3) fun n t s h => ih _ h
      · exact ReadsAlike.bind (h.number 7) fun n t s h => ih _ h

/-- The same two codes have been read, from a restriction of the source. -/
def SameCodes (limit size : Nat) (p q : PrefixCode × PrefixCode × Source) : Prop :=
  p.1 = q.1 ∧ SameRead limit size p.2 q.2

/-- The two codes that a block gives for itself are read alike.  They are compared as a pair, since
no output is written before both are known. -/
theorem alike_readCodes (h : t.Restricts limit size s) :
    Alike limit size (SameCodes limit size) (readCodes t) (readCodes s) := by
  refine ReadsAlike.bind (h.number 5) fun literalCount t s h => ?_
  refine ReadsAlike.bind (h.number 5) fun distanceCount t s h => ?_
  refine ReadsAlike.bind (h.number 4) fun n t s h => ?_
  dsimp only
  split
  · exact Alike.error
  refine ReadsAlike.bind (readsAlike_readShortLengths _ h) fun short t s h => ?_
  dsimp only
  split
  · exact Alike.error
  refine ReadsAlike.bind (readsAlike_readLengths _ _ _ _ h) fun lengths t s h => ?_
  dsimp only
  split
  · exact Alike.error
  · exact Alike.ok ⟨rfl, rfl, h⟩

/-! ### Writing -/

/-- Where the second computation succeeds, the output has not become smaller; and if it fits the
second limit, the first computation succeeds with a related result, or the output exceeds the first
limit and the first computation says so.  That the output does not become smaller is part of the
relation because a fit at the end must give one at each write before. -/
def AlikeIfFits (limit limit' size : Nat) (written : β → Nat) (R : α → β → Prop)
    (x : Except InflateFault α) (y : Except InflateFault β) : Prop :=
  ∀ b, y = .ok b → size ≤ written b ∧ (written b ≤ limit' →
    (∃ a, x = .ok a ∧ R a b) ∨ (limit < written b ∧ x = .error (.tooLong limit)))

/-- The same has been written, and a restriction of the source is left. -/
def SameWritten (limit : Nat) (p q : Source × Output) : Prop :=
  p.1.Restricts limit q.2.size q.1 ∧ p.2 = q.2

/-- Writing is the same, if it fits.  The sizes are those of the second run, which has all of the
output. -/
abbrev WritesAlike (limit limit' size : Nat) (x y : Except InflateFault (Source × Output)) : Prop :=
  AlikeIfFits limit limit' size (fun q => q.2.size) (SameWritten limit) x y

theorem WritesAlike.ok {out : Output} (h : t.Restricts limit out.size s) :
    WritesAlike limit limit' out.size (.ok (t, out)) (.ok (s, out)) := by
  rintro _ ⟨⟩
  exact ⟨le_rfl, fun _ => .inl ⟨(t, out), rfl, h, rfl⟩⟩

namespace AlikeIfFits

variable {γ δ : Type} {written : δ → Nat} {S : γ → δ → Prop}

/-- Where the second computation fails nothing is to be shown, whatever the first one does. -/
theorem error {x : Except InflateFault γ} {fault : InflateFault} :
    AlikeIfFits limit limit' size written S x (.error fault) :=
  nofun

/-- Reading before writing.  That some result is related to each one that is read is asked for
because the growth of the output must be known even where the first computation has stopped. -/
theorem read {R : α → β → Prop} {x : Except InflateFault α} {y : Except InflateFault β}
    {f : α → Except InflateFault γ} {g : β → Except InflateFault δ} (hxy : Alike limit size R x y)
    (hself : ∀ b, ∃ a, R a b)
    (hfg : ∀ a b, R a b → AlikeIfFits limit limit' size written S (f a) (g b)) :
    AlikeIfFits limit limit' size written S (x >>= f) (y >>= g) := by
  intro d h
  obtain ⟨b, hy, hg⟩ := bind_eq_ok_iff.1 h
  -- How much is written depends on the second computation alone.
  have hgrows : size ≤ written d := by
    obtain ⟨a, hab⟩ := hself b
    exact (hfg a b hab d hg).1
  refine ⟨hgrows, fun hfits => ?_⟩
  obtain ⟨a, rfl, hab⟩ | ⟨hlimit, rfl⟩ := hxy b hy
  · exact (hfg a b hab d hg).2 hfits
  · exact .inr ⟨hlimit.trans_le hgrows, rfl⟩

/-- Reading one value before writing. -/
theorem readOne {x y : Except InflateFault (α × Source)} {f : α × Source → Except InflateFault γ}
    {g : α × Source → Except InflateFault δ} (hxy : ReadsAlike limit size x y)
    (hfg : ∀ a t s, t.Restricts limit size s →
      AlikeIfFits limit limit' size written S (f (a, t)) (g (a, s))) :
    AlikeIfFits limit limit' size written S (x >>= f) (y >>= g) := by
  refine read hxy (fun b => ⟨b, rfl, .refl limit size b.2⟩) ?_
  rintro ⟨a, t⟩ ⟨_, s⟩ ⟨rfl, h⟩
  exact hfg a t s h

/-- Writing after writing.  The output grows along the way, so what fits at the end has fit in
between. -/
theorem bind {x y : Except InflateFault (Source × Output)}
    {f : Source × Output → Except InflateFault γ} {g : Source × Output → Except InflateFault δ}
    (hxy : WritesAlike limit limit' size x y)
    (hfg : ∀ t s out, t.Restricts limit out.size s →
      AlikeIfFits limit limit' out.size written S (f (t, out)) (g (s, out))) :
    AlikeIfFits limit limit' size written S (x >>= f) (y >>= g) := by
  intro d h
  obtain ⟨⟨s, out⟩, hy, hg⟩ := bind_eq_ok_iff.1 h
  obtain ⟨hgrows, hx⟩ := hxy (s, out) hy
  have hmore : out.size ≤ written d := (hfg s s out (.refl limit _ s) d hg).1
  refine ⟨hgrows.trans hmore, fun hfits => ?_⟩
  obtain ⟨⟨t, out⟩, rfl, h, rfl⟩ | ⟨hlimit, rfl⟩ := hx (hmore.trans hfits)
  · exact (hfg t s out h d hg).2 hfits
  · exact .inr ⟨hlimit.trans_le hmore, rfl⟩

/-- Making room before writing.  Under the second limit there is room, since otherwise the output
would not fit it. -/
theorem makeRoom {out : Output} {count : Nat} {f : Source → Except InflateFault γ}
    {g : Source → Except InflateFault δ} (h : t.Restricts limit out.size s)
    (hfg : ∀ t s, t.Restricts limit (out.size + count) s →
      AlikeIfFits limit limit' (out.size + count) written S (f t) (g s)) :
    AlikeIfFits limit limit' out.size written S (makeRoom limit count t out >>= f)
      (makeRoom limit' count s out >>= g) := by
  intro d hrun
  obtain ⟨s', hroom, hg⟩ := bind_eq_ok_iff.1 hrun
  have hgrows : out.size + count ≤ written d := (hfg s' s' (.refl limit _ s') d hg).1
  refine ⟨(Nat.le_add_right _ _).trans hgrows, fun hfits => ?_⟩
  rw [Deflate.makeRoom, if_pos (hgrows.trans hfits)] at hroom
  cases hroom
  have hmore := h.mono (Nat.le_add_right out.size count)
  rw [Deflate.makeRoom]
  split
  · exact (hfg t s hmore d hg).2 hfits
  · next hfull =>
    split
    · exact .inr ⟨by omega, rfl⟩
    split
    · exact (hfg t s hmore d hg).2 hfits
    · next hbefore =>
      -- This is the write that crosses the limit, so nothing has been restricted before.
      obtain rfl : t = s := h.resolve_right fun hrestricts => hbefore hrestricts.1
      refine (hfg _ t ?_ d hg).2 hfits
      rw [Source.lastTurn]
      split
      · exact .refl limit _ t
      · exact .inr ⟨Nat.not_le.1 hfull, rfl, List.take_prefix _ _, rfl⟩

end AlikeIfFits

/-- Copying from earlier output makes the output longer by the length of the match, whatever is
copied.  This is the room that was made for it. -/
theorem size_copyBack (distance length : Nat) (out : Output) :
    (copyBack distance length out).size = out.size + length := by
  induction length generalizing out with
  | zero => rfl
  | succ length ih => rw [copyBack, ih, Array.size_push, Nat.add_assoc, Nat.add_comm 1]

/-- One stored octet is room for it, eight bits, and the rest, as binds. -/
theorem copyStored_succ (limit length : Nat) (s : Source) (out : Output) :
    copyStored limit (length + 1) s out =
      (makeRoom limit 1 s out >>= fun s => s.number 8 >>= fun found =>
        copyStored limit length found.2 (out.push (UInt8.ofNat found.1))) := by
  rw [copyStored]
  cases makeRoom limit 1 s out with
  | error fault => rfl
  | ok s => cases hbyte : s.number 8 <;> simp [hbyte]

/-- The octets of a stored block are written alike.  Room is made for each of them in turn, so the
limit may be crossed within the block. -/
theorem writesAlike_copyStored (length : Nat) {out : Output} (h : t.Restricts limit out.size s) :
    WritesAlike limit limit' out.size (copyStored limit length t out)
      (copyStored limit' length s out) := by
  induction length generalizing s t out with
  | zero => exact WritesAlike.ok h
  | succ length ih =>
      rw [copyStored_succ, copyStored_succ]
      refine AlikeIfFits.makeRoom h fun t s h => ?_
      refine AlikeIfFits.readOne (h.number 8) fun byte t s h => ?_
      rw [← Array.size_push (UInt8.ofNat byte)] at h ⊢
      exact ih h

/-- A stored block is written alike: its length and the complement of its length are read first, and
a mismatch fails. -/
theorem writesAlike_readStored {out : Output} (h : t.Restricts limit out.size s) :
    WritesAlike limit limit' out.size (readStored limit t out) (readStored limit' s out) := by
  refine AlikeIfFits.readOne (h.align.number 16) fun length t s h => ?_
  refine AlikeIfFits.readOne (h.number 16) fun complement t s h => ?_
  dsimp only
  split
  · exact AlikeIfFits.error
  · exact writesAlike_copyStored length h

/-- A match is written alike.  Room is made for all of it at once, and then nothing can fail. -/
theorem writesAlike_readMatch (distances : PrefixCode) (symbol : Nat) {out : Output}
    (h : t.Restricts limit out.size s) :
    WritesAlike limit limit' out.size (readMatch limit distances symbol t out)
      (readMatch limit' distances symbol s out) := by
  refine AlikeIfFits.readOne (readsAlike_extended _ _ _ h) fun length t s h => ?_
  refine AlikeIfFits.readOne (distances.readsAlike_read h) fun index t s h => ?_
  refine AlikeIfFits.readOne (readsAlike_extended _ _ _ h) fun distance t s h => ?_
  refine AlikeIfFits.makeRoom h fun t s h => ?_
  rw [← size_copyBack distance] at h ⊢
  exact WritesAlike.ok h

/-- The symbols of a block are written alike, up to the one that ends the block. -/
theorem writesAlike_readSymbols (literals distances : PrefixCode) (fuel : Nat) {out : Output}
    (h : t.Restricts limit out.size s) :
    WritesAlike limit limit' out.size (readSymbols limit literals distances fuel t out)
      (readSymbols limit' literals distances fuel s out) := by
  induction fuel generalizing s t out with
  | zero => exact AlikeIfFits.error
  | succ fuel ih =>
      -- The three cases are a literal octet, the end of the block and a match.
      refine AlikeIfFits.readOne (literals.readsAlike_read h) fun symbol t s h => ?_
      dsimp only
      split
      · refine AlikeIfFits.makeRoom h fun t s h => ?_
        rw [← Array.size_push (UInt8.ofNat symbol)] at h ⊢
        exact ih h
      split
      · exact WritesAlike.ok h
      · exact AlikeIfFits.bind (writesAlike_readMatch distances symbol h) fun t s out h => ih h

/-- A block is written alike, of whichever of the three types it is. -/
theorem writesAlike_readBlock (fuel type : Nat) {out : Output} (h : t.Restricts limit out.size s) :
    WritesAlike limit limit' out.size (readBlock limit fuel type t out)
      (readBlock limit' fuel type s out) := by
  rw [readBlock.eq_def, readBlock.eq_def]
  split
  · exact writesAlike_readStored h
  · exact writesAlike_readSymbols fixedLiterals fixedDistances fuel h
  · refine AlikeIfFits.read (alike_readCodes h)
      (fun codes => ⟨codes, rfl, rfl, .refl limit _ codes.2.2⟩) ?_
    rintro ⟨literals, distances, t⟩ ⟨_, _, s⟩ ⟨rfl, rfl, h⟩
    exact writesAlike_readSymbols literals distances fuel h
  · exact AlikeIfFits.error

/-- **The blocks of a stream under two limits.**  What they write under the one, if it fits, they
write under the other, unless it exceeds that limit and the run ends with saying so. -/
theorem alikeIfFits_readBlocks (symbolFuel fuel : Nat) {out : Output}
    (h : t.Restricts limit out.size s) :
    AlikeIfFits limit limit' out.size Array.size Eq (readBlocks limit symbolFuel fuel t out)
      (readBlocks limit' symbolFuel fuel s out) := by
  -- Each step is a block, and its output is where the next one starts.
  induction fuel generalizing s t out with
  | zero => exact AlikeIfFits.error
  | succ fuel ih =>
      refine AlikeIfFits.readOne h.bit fun last t s h => ?_
      refine AlikeIfFits.readOne (h.number 2) fun type t s h => ?_
      refine AlikeIfFits.bind (writesAlike_readBlock symbolFuel type h) fun t s out h => ?_
      cases last with
      | true =>
          rintro _ ⟨⟩
          exact ⟨le_rfl, fun _ => .inl ⟨out, rfl, rfl⟩⟩
      | false => exact ih h

end

end Deflate

/-- **What a stream inflates to under another limit**: the same octets, if they are no more than the
limit, and otherwise an error that says they are too many.  No other error can come up, although the
run under the smaller limit may end in the middle of a block. -/
theorem inflate_of_inflate {limit : Nat} {bytes data : List UInt8}
    (h : inflate limit bytes = .ok data) (limit' : Nat) :
    inflate limit' bytes =
      if data.length ≤ limit' then .ok data else .error (.tooLong limit') := by
  obtain ⟨out, hblocks, hout⟩ := bind_eq_ok_iff.1 h
  split at hout
  · cases hout
  · next hfits =>
    cases hout
    have hrun := Deflate.alikeIfFits_readBlocks (8 * bytes.length) (8 * bytes.length)
      (.refl limit' _ (Deflate.Source.ofBytes bytes)) out hblocks
    obtain ⟨_, hblocks', rfl⟩ | ⟨hlimit, hblocks'⟩ := hrun.2 (Nat.not_lt.1 hfits)
    · rw [inflate, hblocks', ok_bind, Array.length_toList]
      split
      · next hlimit => rw [if_neg (Nat.not_le.2 hlimit)]
      · next hlimit => rw [if_pos (Nat.not_lt.1 hlimit)]; rfl
    · rw [inflate, hblocks', error_bind, Array.length_toList, if_neg (Nat.not_le.2 hlimit)]

end FieldGrammar
