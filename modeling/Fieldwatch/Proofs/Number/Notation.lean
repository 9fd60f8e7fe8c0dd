import Fieldwatch.Number.Reading
import Mathlib.Data.List.Forall2
import Mathlib.Data.List.TakeWhile

/-! What is written in a text that is read as a number. For every kind of number the texts that
spell it are described by what they are made of, and reading finds these and no others. -/

namespace Fieldwatch.Reading

def IsBlankText (cs : List Char) : Prop := ∀ c ∈ cs, isBlank c

structure Trims (cs core : List Char) : Prop where
  around : ∃ left right, IsBlankText left ∧ IsBlankText right ∧ cs = left ++ core ++ right
  head : ∀ c ∈ core.head?, isBlank c = false
  last : ∀ c ∈ core.getLast?, isBlank c = false

section Trimming

variable {cs core left rest : List Char}

theorem dropWhile_append (hl : IsBlankText left) (hr : ∀ c ∈ rest.head?, isBlank c = false) :
    (left ++ rest).dropWhile isBlank = rest := by
  rw [List.dropWhile_append_of_pos hl]
  cases rest with
  | nil => rfl
  | cons c rest => exact List.dropWhile_cons_of_neg (by simp [hr c rfl])

theorem trim_append {right : List Char} (hl : IsBlankText left) (hr : IsBlankText right)
    (hhead : ∀ c ∈ core.head?, isBlank c = false) (hlast : ∀ c ∈ core.getLast?, isBlank c = false) :
    trim (left ++ core ++ right) = core := by
  have hright : IsBlankText right.reverse := fun c hc => hr c (List.mem_reverse.1 hc)
  cases core with
  | nil =>
    have hall : IsBlankText (left ++ right) := List.forall_mem_append.2 ⟨hl, hr⟩
    rw [List.append_nil, trim, List.dropWhile_eq_nil_iff.2 hall]
    rfl
  | cons c core =>
    have hfront : ∀ d ∈ (c :: core ++ right).head?, isBlank d = false := hhead
    have hback : ∀ d ∈ (c :: core).reverse.head?, isBlank d = false := by
      rwa [List.head?_reverse]
    rw [trim, List.append_assoc, dropWhile_append hl hfront, List.reverse_append,
      dropWhile_append hright hback, List.reverse_reverse]

theorem trims_trim (cs : List Char) : Trims cs (trim cs) := by
  have hback : (trim cs).reverse = (cs.dropWhile isBlank).reverse.dropWhile isBlank :=
    List.reverse_reverse _
  have hsplit : cs.dropWhile isBlank =
      trim cs ++ ((cs.dropWhile isBlank).reverse.takeWhile isBlank).reverse := by
    rw [trim, ← List.reverse_append, List.takeWhile_append_dropWhile, List.reverse_reverse]
  refine ⟨⟨cs.takeWhile isBlank, ((cs.dropWhile isBlank).reverse.takeWhile isBlank).reverse, ?_, ?_,
    ?_⟩, fun c hc => ?_, fun c hc => ?_⟩
  · exact fun c hc => List.mem_takeWhile_imp hc
  · exact fun c hc => List.mem_takeWhile_imp (List.mem_reverse.1 hc)
  · rw [List.append_assoc, ← hsplit, List.takeWhile_append_dropWhile]
  · have hhead : c ∈ (cs.dropWhile isBlank).head? := by
      rw [hsplit, List.head?_append, Option.mem_def.1 hc]
      rfl
    simpa [Option.mem_def.1 hhead] using List.head?_dropWhile_not isBlank cs
  · have hhead : c ∈ (trim cs).reverse.head? := by rwa [List.head?_reverse]
    rw [hback] at hhead
    simpa [Option.mem_def.1 hhead] using
      List.head?_dropWhile_not isBlank (cs.dropWhile isBlank).reverse

theorem trim_eq_iff : trim cs = core ↔ Trims cs core := by
  constructor
  · rintro rfl
    exact trims_trim cs
  · rintro ⟨⟨left, right, hl, hr, rfl⟩, hhead, hlast⟩
    exact trim_append hl hr hhead hlast

end Trimming

theorem mapM_eq_some_iff {α β : Type} {f : α → Option β} {xs : List α} {ys : List β} :
    xs.mapM f = some ys ↔ List.Forall₂ (fun x y => f x = some y) xs ys := by
  induction xs generalizing ys with
  | nil => simp [eq_comm]
  | cons x xs ih =>
    rw [List.mapM_cons, List.forall₂_cons_left_iff]
    simp only [Option.bind_eq_bind, Option.bind_eq_some_iff, Option.pure_def, Option.some_inj, ih]
    constructor
    · rintro ⟨y, hy, zs, hzs, rfl⟩
      exact ⟨y, zs, hy, hzs, rfl⟩
    · rintro ⟨y, zs, hy, hzs, rfl⟩
      exact ⟨y, hy, zs, hzs, rfl⟩

def AllDigits (cs : List Char) : Prop := ∀ c ∈ cs, c.isDigit

structure SpellsDigits (cs : List Char) (n : Nat) : Prop where
  nonempty : cs ≠ []
  digits : AllDigits cs
  value : n = Nat.ofDigitChars 10 cs 0

section Digits

variable {cs ds rest : List Char} {n : Nat}

theorem digit?_of_isDigit {c : Char} (h : c.isDigit) : digit? c = some (c.toNat - '0'.toNat) :=
  if_pos h

theorem mapM_digit? (h : AllDigits cs) :
    cs.mapM digit? = some (cs.map fun c => c.toNat - '0'.toNat) :=
  mapM_eq_some_iff.2 (List.forall₂_map_right_iff.2
    (List.forall₂_same.2 fun c hc => digit?_of_isDigit (h c hc)))

theorem allDigits_of_mapM {vs : List Nat} (h : cs.mapM digit? = some vs) : AllDigits cs := by
  induction mapM_eq_some_iff.1 h with
  | nil => exact List.forall_mem_nil _
  | @cons c v cs vs hv hvs ih =>
    have hc : c.isDigit := by
      by_contra hc
      rw [digit?, if_neg hc] at hv
      cases hv
    exact List.forall_mem_cons.2 ⟨hc, ih (mapM_eq_some_iff.2 hvs)⟩

theorem ofDigits_map (cs : List Char) :
    ofDigits (cs.map fun c => c.toNat - '0'.toNat) = Nat.ofDigitChars 10 cs 0 := by
  rw [ofDigits, List.foldl_map, Nat.ofDigitChars_eq_foldl]

theorem digits?_eq_some_iff : digits? cs = some n ↔ SpellsDigits cs n := by
  unfold digits?
  constructor
  · intro h
    split at h
    · cases h
    · next hne =>
      obtain ⟨vs, hvs, rfl⟩ := Option.map_eq_some_iff.1 h
      have hall := allDigits_of_mapM hvs
      obtain rfl := Option.some_inj.1 ((mapM_digit? hall).symm.trans hvs)
      exact ⟨fun hcs => hne (List.isEmpty_iff.2 hcs), hall, ofDigits_map cs⟩
  · rintro ⟨hne, hall, rfl⟩
    rw [if_neg fun h => hne (List.isEmpty_iff.1 h), mapM_digit? hall, Option.map_some, ofDigits_map]

theorem SpellsDigits.head (h : SpellsDigits cs n) : ∃ c rest, cs = c :: rest ∧ c.isDigit := by
  obtain ⟨c, rest, rfl⟩ := List.exists_cons_of_ne_nil h.nonempty
  exact ⟨c, rest, rfl, h.digits c List.mem_cons_self⟩

def NoDigitAhead (cs : List Char) : Prop := ∀ c ∈ cs.head?, c.isDigit = false

theorem spanDigits_append (hd : AllDigits ds) (hr : NoDigitAhead rest) :
    spanDigits (ds ++ rest) = (ds.map fun c => c.toNat - '0'.toNat, rest) := by
  have htake : rest.takeWhile Char.isDigit = [] := by
    cases rest with
    | nil => rfl
    | cons c rest => exact List.takeWhile_cons_of_neg (by simp [hr c rfl])
  have hdrop : rest.dropWhile Char.isDigit = rest := by
    cases rest with
    | nil => rfl
    | cons c rest => exact List.dropWhile_cons_of_neg (by simp [hr c rfl])
  have hmap : ds.filterMap digit? = ds.map fun c => c.toNat - '0'.toNat := by
    rw [← List.filterMap_eq_map]
    exact List.filterMap_congr fun c hc => digit?_of_isDigit (hd c hc)
  rw [spanDigits, List.takeWhile_append_of_pos hd, List.dropWhile_append_of_pos hd, htake, hdrop,
    List.append_nil, hmap]

theorem exists_spanDigits (cs : List Char) :
    ∃ ds rest, AllDigits ds ∧ NoDigitAhead rest ∧ cs = ds ++ rest := by
  refine ⟨cs.takeWhile Char.isDigit, cs.dropWhile Char.isDigit, fun c hc => ?_, fun c hc => ?_,
    List.takeWhile_append_dropWhile.symm⟩
  · exact List.mem_takeWhile_imp hc
  · simpa [Option.mem_def.1 hc] using List.head?_dropWhile_not Char.isDigit cs

end Digits

def SpellsNatural (bound : Nat) (cs : List Char) (n : Nat) : Prop :=
  n < bound ∧ ∃ ds, SpellsDigits ds n ∧ (cs = ds ∨ cs = '+' :: ds)

def SpellsInteger (bound : Nat) (cs : List Char) (z : Int) : Prop :=
  (∃ n, SpellsNatural bound cs n ∧ z = n) ∨
    ∃ ds n, SpellsDigits ds n ∧ n ≤ bound ∧ cs = '-' :: ds ∧ z = -n

section Whole

variable {cs : List Char} {bound n : Nat}

theorem natural?_eq_some_iff : natural? bound cs = some n ↔ SpellsNatural bound cs n := by
  unfold natural? SpellsNatural
  rw [Option.filter_eq_some_iff, digits?_eq_some_iff, decide_eq_true_iff, and_comm]
  refine and_congr_right fun _ => ⟨fun h => ?_, ?_⟩
  · split at h
    · exact ⟨_, h, .inr rfl⟩
    · exact ⟨_, h, .inl rfl⟩
  · rintro ⟨ds, h, rfl | rfl⟩
    · obtain ⟨c, rest, rfl, hc⟩ := h.head
      split
      · next heq =>
        obtain ⟨rfl, -⟩ := List.cons.inj heq
        cases hc
      · exact h
    · exact h

theorem integer?_eq_some_iff {z : Int} : integer? bound cs = some z ↔ SpellsInteger bound cs z := by
  unfold integer? SpellsInteger
  split
  · next rest =>
    rw [Option.map_eq_some_iff]
    constructor
    · rintro ⟨_, h, rfl⟩
      obtain ⟨n, hn, ⟨⟩⟩ := Option.bind_eq_some_iff.1 h
      obtain ⟨hds, hle⟩ := Option.filter_eq_some_iff.1 hn
      exact .inr ⟨rest, n, digits?_eq_some_iff.1 hds, of_decide_eq_true hle, rfl, rfl⟩
    · rintro (⟨n, ⟨-, ds, hds, h | h⟩, -⟩ | ⟨ds, n, hds, hle, h, rfl⟩)
      · obtain ⟨c, rest', rfl, hc⟩ := hds.head
        obtain ⟨rfl, -⟩ := List.cons.inj h
        cases hc
      · exact absurd (List.cons.inj h).1 (by decide)
      · obtain ⟨-, rfl⟩ := List.cons.inj h
        have hn : (digits? rest).filter (· ≤ bound) = some n :=
          Option.filter_eq_some_iff.2 ⟨digits?_eq_some_iff.2 hds, decide_eq_true hle⟩
        exact ⟨n, Option.bind_eq_some_iff.2 ⟨n, hn, rfl⟩, rfl⟩
  · next hminus =>
    rw [Option.map_eq_some_iff]
    constructor
    · rintro ⟨n, hn, rfl⟩
      exact .inl ⟨n, natural?_eq_some_iff.1 hn, rfl⟩
    · rintro (⟨n, hn, rfl⟩ | ⟨ds, n, -, -, h, -⟩)
      · exact ⟨n, natural?_eq_some_iff.2 hn, rfl⟩
      · exact absurd h (hminus ds)

end Whole

def SpellsExponent (cs : List Char) (k : Int) : Prop :=
  cs = [] ∧ k = 0 ∨ ∃ letter ds n, (letter = 'e' ∨ letter = 'E') ∧ SpellsDigits ds n ∧
    (cs = letter :: '-' :: ds ∧ k = -n ∨ (cs = letter :: ds ∨ cs = letter :: '+' :: ds) ∧ k = n)

/-- Digits, at least one, with or without a point among them, and maybe an exponent: the number
`m * 10 ^ e`. -/
def SpellsDecimal (cs : List Char) (m : Nat) (e : Int) : Prop :=
  ∃ whole point fraction exponent k, SpellsDigits (whole ++ fraction) m ∧
    (point = ['.'] ∨ point = [] ∧ fraction = []) ∧ SpellsExponent exponent k ∧
      cs = whole ++ point ++ fraction ++ exponent ∧ e = k - fraction.length

section Decimals

variable {cs : List Char} {m : Nat} {e k : Int}

theorem exponent?_eq_some_iff : exponent? cs = some k ↔ SpellsExponent cs k := by
  constructor
  · intro h
    unfold exponent? at h
    split at h
    · exact .inl ⟨rfl, (Option.some_inj.1 h).symm⟩
    · obtain ⟨_, hz, rfl⟩ := Option.map_eq_some_iff.1 h
      obtain ⟨n, hn, ⟨⟩⟩ := Option.bind_eq_some_iff.1 hz
      exact .inr ⟨_, _, n, .inl rfl, digits?_eq_some_iff.1 hn, .inl ⟨rfl, rfl⟩⟩
    · obtain ⟨_, hz, rfl⟩ := Option.map_eq_some_iff.1 h
      obtain ⟨n, hn, ⟨⟩⟩ := Option.bind_eq_some_iff.1 hz
      exact .inr ⟨_, _, n, .inr rfl, digits?_eq_some_iff.1 hn, .inl ⟨rfl, rfl⟩⟩
    all_goals
      first
      | cases h
      | obtain ⟨n, hn, rfl⟩ := Option.map_eq_some_iff.1 h
    · exact .inr ⟨_, _, n, .inl rfl, digits?_eq_some_iff.1 hn, .inr ⟨.inr rfl, rfl⟩⟩
    · exact .inr ⟨_, _, n, .inr rfl, digits?_eq_some_iff.1 hn, .inr ⟨.inr rfl, rfl⟩⟩
    · exact .inr ⟨_, _, n, .inl rfl, digits?_eq_some_iff.1 hn, .inr ⟨.inl rfl, rfl⟩⟩
    · exact .inr ⟨_, _, n, .inr rfl, digits?_eq_some_iff.1 hn, .inr ⟨.inl rfl, rfl⟩⟩
  · rintro (⟨rfl, rfl⟩ | ⟨letter, ds, n, hletter, hds, hcs⟩)
    · rfl
    have hread := digits?_eq_some_iff.2 hds
    rcases hcs with ⟨rfl, rfl⟩ | ⟨rfl | rfl, rfl⟩
    · rcases hletter with rfl | rfl <;> simp [exponent?, hread]
    · -- without a sign the first of the digits must not be taken for one
      obtain ⟨c, rest, rfl, hc⟩ := hds.head
      have hminus : c ≠ '-' := by
        rintro rfl
        cases hc
      have hplus : c ≠ '+' := by
        rintro rfl
        cases hc
      rcases hletter with rfl | rfl <;> simp [exponent?, hread, hminus, hplus]
    · rcases hletter with rfl | rfl <;> simp [exponent?, hread]

theorem SpellsExponent.noDigitAhead (h : SpellsExponent cs k) : NoDigitAhead cs := by
  rcases h with ⟨rfl, -⟩ | ⟨letter, ds, n, hletter, -, hcs⟩
  · exact fun c hc => absurd hc (by simp)
  · have hhead : cs.head? = some letter := by
      rcases hcs with ⟨rfl, -⟩ | ⟨rfl | rfl, -⟩ <;> rfl
    intro c hc
    obtain rfl := Option.some_inj.1 (hhead.symm.trans hc)
    rcases hletter with rfl | rfl <;> rfl

theorem SpellsDecimal.head (h : SpellsDecimal cs m e) :
    ∃ c rest, cs = c :: rest ∧ (c.isDigit ∨ c = '.') := by
  obtain ⟨whole, point, fraction, exponent, k, hm, hpoint, -, rfl, -⟩ := h
  cases whole with
  | cons c whole => exact ⟨c, _, rfl, .inl (hm.digits c List.mem_cons_self)⟩
  | nil =>
    rcases hpoint with rfl | ⟨-, rfl⟩
    · exact ⟨'.', _, rfl, .inr rfl⟩
    · exact absurd rfl hm.nonempty

end Decimals

def SpellsMagnitude (cs : List Char) (x : Float32) : Prop :=
  String.ofList (cs.map Char.toLower) ∈ ["inf", "infinity"] ∧ x = 1 / 0 ∨
    String.ofList (cs.map Char.toLower) = "nan" ∧ x = 0 / 0 ∨
      ∃ m e, SpellsDecimal cs m e ∧ x = ofDecimal m e

structure Divides (cs ds point fs rest : List Char) : Prop where
  front : AllDigits ds
  middle : point = ['.'] ∨ point = [] ∧ fs = [] ∧ ∀ tail, rest ≠ '.' :: tail
  back : AllDigits fs
  after : NoDigitAhead rest
  text : cs = ds ++ point ++ fs ++ rest

section Magnitudes

variable {cs ds point fs rest : List Char} {x : Float32}

theorem head_of_word (h : String.ofList (cs.map Char.toLower) ∈ ["inf", "infinity", "nan"]) :
    ∃ c rest, cs = c :: rest ∧ (c.toLower = 'i' ∨ c.toLower = 'n') := by
  have hletter : ∀ w ∈ ["inf", "infinity", "nan"],
      w.toList.head? = some 'i' ∨ w.toList.head? = some 'n' := by
    decide +kernel
  have hhead := hletter _ h
  rw [String.toList_ofList, List.head?_map] at hhead
  cases cs with
  | nil => rcases hhead with hhead | hhead <;> cases hhead
  | cons c rest => exact ⟨c, rest, rfl, hhead.imp Option.some_inj.1 Option.some_inj.1⟩

theorem not_word {c : Char} (hc : c.isDigit ∨ c = '.') :
    String.ofList ((c :: rest).map Char.toLower) ∉ ["inf", "infinity", "nan"] := by
  intro h
  obtain ⟨_, _, heq, hletter⟩ := head_of_word h
  obtain ⟨rfl, -⟩ := List.cons.inj heq
  -- lowering leaves digits and the point as they are
  rcases hc with hc | rfl
  · have hle : c.toNat ≤ 57 := (Char.isDigit_iff_toNat.1 hc).2
    have hA : ¬ c.val ≥ 'A'.val := fun hge => by
      have hge' : 65 ≤ c.toNat := UInt32.le_iff_toNat_le.1 hge
      omega
    have hlow : c.toLower = c := dif_neg fun hAZ => hA hAZ.1
    rw [hlow] at hletter
    rcases hletter with rfl | rfl <;> cases hc
  · revert hletter
    decide

theorem ofDigits_spanned (ds fs : List Char) :
    ofDigits ((ds.map fun c => c.toNat - '0'.toNat) ++ fs.map fun c => c.toNat - '0'.toNat) =
      Nat.ofDigitChars 10 (ds ++ fs) 0 := by
  rw [← List.map_append, ofDigits_map]

theorem exists_divides (cs : List Char) : ∃ ds point fs rest, Divides cs ds point fs rest := by
  obtain ⟨ds, rest, hd, hr, rfl⟩ := exists_spanDigits cs
  by_cases hdot : ∃ tail, rest = '.' :: tail
  · obtain ⟨tail, rfl⟩ := hdot
    obtain ⟨fs, rest, hf, hafter, rfl⟩ := exists_spanDigits tail
    exact ⟨ds, ['.'], fs, rest, hd, .inl rfl, hf, hafter, by simp⟩
  · exact ⟨ds, [], [], rest, hd, .inr ⟨rfl, rfl, not_exists.1 hdot⟩, List.forall_mem_nil _, hr,
      by simp⟩

theorem magnitude?_of_infinite (h : String.ofList (cs.map Char.toLower) ∈ ["inf", "infinity"]) :
    magnitude? cs = some (1 / 0) := by
  unfold magnitude?
  exact if_pos (by simpa using h)

theorem magnitude?_of_nan (h : String.ofList (cs.map Char.toLower) = "nan") :
    magnitude? cs = some (0 / 0) := by
  unfold magnitude?
  rw [h]
  rfl

theorem Divides.magnitude?_eq (h : Divides cs ds point fs rest)
    (hword : String.ofList (cs.map Char.toLower) ∉ ["inf", "infinity", "nan"]) :
    magnitude? cs =
      if ds.isEmpty && fs.isEmpty then none
      else (exponent? rest).map fun k =>
        ofDecimal (Nat.ofDigitChars 10 (ds ++ fs) 0) (k - fs.length) := by
  have hinf : ¬ (decide (String.ofList (cs.map Char.toLower) = "inf") ||
      decide (String.ofList (cs.map Char.toLower) = "infinity")) = true := by
    rw [Bool.or_eq_true, decide_eq_true_iff, decide_eq_true_iff]
    rintro (heq | heq) <;> exact hword (by simp [heq])
  have hnan : String.ofList (cs.map Char.toLower) ≠ "nan" := fun heq => hword (by simp [heq])
  unfold magnitude?
  rw [if_neg hinf, if_neg hnan]
  obtain ⟨hd, hpoint, hf, hr, rfl⟩ := h
  rcases hpoint with rfl | ⟨rfl, rfl, hdot⟩
  · have hfront : spanDigits (ds ++ ['.'] ++ fs ++ rest) =
        (ds.map fun c => c.toNat - '0'.toNat, '.' :: (fs ++ rest)) := by
      rw [List.append_assoc, List.append_assoc]
      exact spanDigits_append hd fun c hc => by
        obtain rfl := Option.some_inj.1 hc
        rfl
    simp only [hfront, spanDigits_append hf hr, List.isEmpty_map, List.length_map, ofDigits_spanned]
  · rw [List.append_nil, List.append_nil, spanDigits_append hd hr]
    dsimp only
    split
    · next tail => exact absurd rfl (hdot tail)
    · rw [List.isEmpty_map, List.append_nil, ofDigits_map]
      rfl

theorem SpellsDecimal.exists_divides {m : Nat} {e : Int} (h : SpellsDecimal cs m e) :
    ∃ ds point fs rest k, Divides cs ds point fs rest ∧ SpellsDigits (ds ++ fs) m ∧
      SpellsExponent rest k ∧ e = k - fs.length := by
  obtain ⟨ds, point, fs, rest, k, hm, hpoint, hk, hcs, he⟩ := h
  have hdot : ∀ tail, rest ≠ '.' :: tail := by
    rintro tail rfl
    rcases hk with ⟨h, -⟩ | ⟨letter, _, _, hletter, -, ⟨h, -⟩ | ⟨h | h, -⟩⟩
    · cases h
    all_goals
      obtain ⟨rfl, -⟩ := List.cons.inj h
      rcases hletter with h | h <;> cases h
  have hall := List.forall_mem_append.1 hm.digits
  exact ⟨ds, point, fs, rest, k, ⟨hall.1, hpoint.imp id fun hp => ⟨hp.1, hp.2, hdot⟩, hall.2,
    hk.noDigitAhead, hcs⟩, hm, hk, he⟩

theorem magnitude?_eq_some_iff : magnitude? cs = some x ↔ SpellsMagnitude cs x := by
  constructor
  · intro h
    by_cases hinf : String.ofList (cs.map Char.toLower) ∈ ["inf", "infinity"]
    · exact .inl ⟨hinf, Option.some_inj.1 (h.symm.trans (magnitude?_of_infinite hinf))⟩
    by_cases hnan : String.ofList (cs.map Char.toLower) = "nan"
    · exact .inr (.inl ⟨hnan, Option.some_inj.1 (h.symm.trans (magnitude?_of_nan hnan))⟩)
    have hword : String.ofList (cs.map Char.toLower) ∉ ["inf", "infinity", "nan"] := by
      simpa [hnan] using hinf
    obtain ⟨ds, point, fs, rest, hdiv⟩ := Reading.exists_divides cs
    rw [hdiv.magnitude?_eq hword] at h
    split at h
    · cases h
    · next hne =>
      obtain ⟨k, hk, rfl⟩ := Option.map_eq_some_iff.1 h
      have hm : SpellsDigits (ds ++ fs) (Nat.ofDigitChars 10 (ds ++ fs) 0) :=
        ⟨fun hnil => hne (by simpa using hnil),
        List.forall_mem_append.2 ⟨hdiv.front, hdiv.back⟩, rfl⟩
      have hpoint := hdiv.middle.imp id fun hp => And.intro hp.1 hp.2.1
      exact .inr (.inr ⟨_, _, ⟨ds, point, fs, rest, k, hm, hpoint, exponent?_eq_some_iff.1 hk,
        hdiv.text, rfl⟩, rfl⟩)
  · rintro (⟨hword, rfl⟩ | ⟨hword, rfl⟩ | ⟨m, e, h, rfl⟩)
    · exact magnitude?_of_infinite hword
    · exact magnitude?_of_nan hword
    · obtain ⟨c, tail, rfl, hc⟩ := h.head
      obtain ⟨ds, point, fs, rest, k, hdiv, hm, hk, rfl⟩ := h.exists_divides
      have hne : ¬ (ds.isEmpty && fs.isEmpty) = true := fun h => hm.nonempty (by simpa using h)
      rw [hdiv.magnitude?_eq (not_word hc), if_neg hne, exponent?_eq_some_iff.2 hk, hm.value]
      rfl

theorem SpellsMagnitude.head (h : SpellsMagnitude cs x) :
    ∃ c rest, cs = c :: rest ∧ c ≠ '+' ∧ c ≠ '-' := by
  have hword : String.ofList (cs.map Char.toLower) ∈ ["inf", "infinity", "nan"] →
      ∃ c rest, cs = c :: rest ∧ c ≠ '+' ∧ c ≠ '-' := by
    intro hmem
    obtain ⟨c, rest, rfl, hc⟩ := head_of_word hmem
    refine ⟨c, rest, rfl, ?_, ?_⟩ <;>
    · rintro rfl
      revert hc
      decide
  rcases h with ⟨hinf, -⟩ | ⟨hnan, -⟩ | ⟨m, e, hdec, -⟩
  · exact hword (List.mem_append_left ["nan"] hinf)
  · exact hword (by simp [hnan])
  · obtain ⟨c, rest, rfl, hc⟩ := hdec.head
    refine ⟨c, rest, rfl, ?_, ?_⟩ <;>
    · rintro rfl
      revert hc
      decide

end Magnitudes

def SpellsFloat (cs : List Char) (x : Float32) : Prop :=
  (∃ body, (cs = body ∨ cs = '+' :: body) ∧ SpellsMagnitude body x) ∨
    ∃ body y, cs = '-' :: body ∧ SpellsMagnitude body y ∧ x = -y

theorem float?_eq_some_iff {cs : List Char} {x : Float32} :
    float? cs = some x ↔ SpellsFloat cs x := by
  constructor
  · intro h
    unfold float? at h
    split at h
    · obtain ⟨y, hy, rfl⟩ := Option.map_eq_some_iff.1 h
      exact .inr ⟨_, y, rfl, magnitude?_eq_some_iff.1 hy, rfl⟩
    · exact .inl ⟨_, .inr rfl, magnitude?_eq_some_iff.1 h⟩
    · exact .inl ⟨_, .inl rfl, magnitude?_eq_some_iff.1 h⟩
  · rintro (⟨body, rfl | rfl, h⟩ | ⟨body, y, rfl, h, rfl⟩)
    · obtain ⟨c, rest, rfl, hplus, hminus⟩ := h.head
      rw [float?]
      · exact magnitude?_eq_some_iff.2 h
      · exact fun tail heq => hminus (List.cons.inj heq).1
      · exact fun tail heq => hplus (List.cons.inj heq).1
    · exact magnitude?_eq_some_iff.2 h
    · rw [float?, magnitude?_eq_some_iff.2 h]
      rfl

end Fieldwatch.Reading
