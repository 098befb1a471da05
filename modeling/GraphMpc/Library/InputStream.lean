import Mathlib.Data.BitVec
import Mathlib.Data.List.TakeWhile
import Mathlib.Tactic.Common

-- formatted extraction from a character stream: what is not read yet and the two state bits
structure InputStream where
  rest : List Char
  eof : Bool := false
  fail : Bool := false
  deriving DecidableEq, Repr

namespace InputStream

def isSpace (c : Char) : Bool := c = ' ' || (9 ≤ c.toNat && c.toNat ≤ 13)

def good (s : InputStream) : Bool := !s.eof && !s.fail

def sentry (s : InputStream) : Bool × InputStream :=
  if s.good then
    match s.rest.dropWhile isSpace with
    | [] => (false, { rest := [], eof := true, fail := true })
    | c :: rest => (true, { rest := c :: rest })
  else (false, { s with fail := true })

def getChar (s : InputStream) : Option Char × InputStream :=
  match s.sentry with
  | (false, s) => (none, s)
  | (true, s) =>
    match s.rest with
    | [] => (none, { rest := [], eof := true, fail := true })
    | c :: rest => (some c, { rest := rest })

def putback (c : Char) (s : InputStream) : InputStream :=
  { s with rest := c :: s.rest, eof := false }

def takeSign : List Char → Bool × List Char
  | [] => (false, [])
  | c :: rest =>
    if c = '-' then (true, rest)
    else if c = '+' then (false, rest)
    else (false, c :: rest)

def value (ds : List Char) : ℕ := Nat.ofDigitChars 10 ds 0

-- the digits are all taken, also those of a number that is too large
def readUnsigned (w : ℕ) (text : List Char) : BitVec w × InputStream :=
  let (negative, rest) := takeSign text
  let digits := rest.takeWhile Char.isDigit
  let rest := rest.dropWhile Char.isDigit
  if digits.isEmpty then (0, { rest := rest, eof := rest.isEmpty, fail := true })
  else if 2 ^ w ≤ value digits then
    (BitVec.allOnes w, { rest := rest, eof := rest.isEmpty, fail := true })
  else
    let x := BitVec.ofNat w (value digits)
    (if negative then -x else x, { rest := rest, eof := rest.isEmpty })

-- v: what the variable held before
def getUnsigned {w : ℕ} (v : BitVec w) (s : InputStream) : BitVec w × InputStream :=
  match s.sentry with
  | (false, s) => (v, s)
  | (true, s) => readUnsigned w s.rest

def Blank (sp : List Char) : Prop := ∀ c ∈ sp, isSpace c = true

def NoDigit (text : List Char) : Prop := ∀ c ∈ text.head?, c.isDigit = false

structure Digits (ds : List Char) : Prop where
  nonempty : ds ≠ []
  digit : ∀ c ∈ ds, c.isDigit = true

def Sign (sg : List Char) : Prop := sg = [] ∨ sg = ['+'] ∨ sg = ['-']

inductive Numeral (w : ℕ) : List Char → BitVec w → Prop
  | plain (ds : List Char) : Digits ds → value ds < 2 ^ w →
      Numeral w ds (BitVec.ofNat w (value ds))
  | plus (ds : List Char) : Digits ds → value ds < 2 ^ w →
      Numeral w ('+' :: ds) (BitVec.ofNat w (value ds))
  | minus (ds : List Char) : Digits ds → value ds < 2 ^ w →
      Numeral w ('-' :: ds) (-BitVec.ofNat w (value ds))

inductive Unreadable (w : ℕ) : List Char → Prop
  | missing : Unreadable w []
  | sign (c : Char) : c = '+' ∨ c = '-' → Unreadable w [c]
  | large (sg ds : List Char) : Sign sg → Digits ds → 2 ^ w ≤ value ds → Unreadable w (sg ++ ds)

variable {w : ℕ} {sp sg ds text rest : List Char} {c : Char} {x : BitVec w}

theorem dropWhile_blank (hsp : Blank sp) (hc : isSpace c = false) :
    (sp ++ c :: rest).dropWhile isSpace = c :: rest := by
  rw [List.dropWhile_append_of_pos hsp, List.dropWhile_cons_of_neg (by simp [hc])]

theorem dropWhile_blank_nil (hsp : Blank sp) : sp.dropWhile isSpace = [] := by
  have h : (sp ++ []).dropWhile isSpace = _ := List.dropWhile_append_of_pos hsp
  simpa using h

theorem blank_cases (text : List Char) :
    ∃ sp rest, text = sp ++ rest ∧ Blank sp ∧ ∀ c ∈ rest.head?, isSpace c = false := by
  refine ⟨text.takeWhile isSpace, text.dropWhile isSpace,
    List.takeWhile_append_dropWhile.symm, fun c hc => List.mem_takeWhile_imp hc, ?_⟩
  intro c hc
  have := List.head?_dropWhile_not isSpace text
  rw [Option.mem_def.mp hc] at this
  simpa using this

theorem isSpace_of_isDigit (hc : c.isDigit = true) : isSpace c = false := by
  have h1 : 48 ≤ c.toNat := by
    simp only [Char.isDigit, Bool.and_eq_true, decide_eq_true_eq] at hc
    exact hc.1
  by_contra hs
  simp only [isSpace, Bool.not_eq_false, Bool.or_eq_true, decide_eq_true_eq,
    Bool.and_eq_true] at hs
  rcases hs with rfl | hs
  · exact absurd h1 (by decide)
  · omega

theorem getChar_blank (hsp : Blank sp) :
    getChar { rest := sp } = (none, { rest := [], eof := true, fail := true }) := by
  simp [getChar, sentry, good, dropWhile_blank_nil hsp]

theorem getChar_cons (hsp : Blank sp) (hc : isSpace c = false) :
    getChar { rest := sp ++ c :: rest } = (some c, { rest := rest }) := by
  simp [getChar, sentry, good, dropWhile_blank hsp hc]

theorem getChar_stopped {s : InputStream} (hs : s.good = false) :
    s.getChar = (none, { s with fail := true }) := by
  simp [getChar, sentry, hs]

theorem getUnsigned_stopped {s : InputStream} (v : BitVec w) (hs : s.good = false) :
    s.getUnsigned v = (v, { s with fail := true }) := by
  simp [getUnsigned, sentry, hs]

theorem getUnsigned_blank (v : BitVec w) (hsp : Blank sp) :
    getUnsigned v { rest := sp } = (v, { rest := [], eof := true, fail := true }) := by
  simp [getUnsigned, sentry, good, dropWhile_blank_nil hsp]

theorem getUnsigned_cons (v : BitVec w) (hsp : Blank sp) (hc : isSpace c = false) :
    getUnsigned v { rest := sp ++ c :: rest } = readUnsigned w (c :: rest) := by
  simp [getUnsigned, sentry, good, dropWhile_blank hsp hc]

theorem takeSign_sign (hsg : Sign sg) (hd : ds ≠ []) (hds : ∀ c ∈ ds, c.isDigit = true) :
    takeSign (sg ++ (ds ++ rest)) = (decide (sg = ['-']), ds ++ rest) := by
  rcases hsg with rfl | rfl | rfl
  · obtain _ | ⟨c, ds⟩ := ds
    · exact absurd rfl hd
    · have hc := hds c (List.mem_cons_self ..)
      have hm : c ≠ '-' := fun h => by simp [h] at hc
      have hp : c ≠ '+' := fun h => by simp [h] at hc
      simp [takeSign, hm, hp]
  · simp [takeSign]
  · simp [takeSign]

theorem digits_dropWhile (hds : ∀ c ∈ ds, c.isDigit = true) (hr : NoDigit rest) :
    (ds ++ rest).takeWhile Char.isDigit = ds ∧ (ds ++ rest).dropWhile Char.isDigit = rest := by
  rw [List.takeWhile_append_of_pos hds, List.dropWhile_append_of_pos hds]
  obtain _ | ⟨c, rest⟩ := rest
  · simp
  · have hc : c.isDigit = false := hr c rfl
    simp [hc]

theorem readUnsigned_large (hsg : Sign sg) (hds : Digits ds) (hr : NoDigit rest)
    (hv : 2 ^ w ≤ value ds) : readUnsigned w (sg ++ (ds ++ rest)) =
      (BitVec.allOnes w, { rest := rest, eof := rest.isEmpty, fail := true }) := by
  obtain ⟨ht, hdr⟩ := digits_dropWhile hds.digit hr
  simp [readUnsigned, takeSign_sign hsg hds.nonempty hds.digit, ht, hdr, hds.nonempty, hv]

theorem readUnsigned_signed (hsg : Sign sg) (hds : Digits ds) (hr : NoDigit rest)
    (hv : value ds < 2 ^ w) : readUnsigned w (sg ++ (ds ++ rest)) =
      (if sg = ['-'] then -BitVec.ofNat w (value ds) else BitVec.ofNat w (value ds),
        { rest := rest, eof := rest.isEmpty }) := by
  obtain ⟨ht, hdr⟩ := digits_dropWhile hds.digit hr
  simp [readUnsigned, takeSign_sign hsg hds.nonempty hds.digit, ht, hdr, hds.nonempty,
    Nat.not_le.mpr hv]

theorem Numeral.signed (hn : Numeral w text x) : ∃ sg ds, text = sg ++ ds ∧ Sign sg ∧ Digits ds ∧
    value ds < 2 ^ w ∧
      x = if sg = ['-'] then -BitVec.ofNat w (value ds) else BitVec.ofNat w (value ds) := by
  cases hn with
  | plain ds hds hv => exact ⟨[], text, rfl, Or.inl rfl, hds, hv, rfl⟩
  | plus ds hds hv => exact ⟨['+'], ds, rfl, Or.inr (Or.inl rfl), hds, hv, rfl⟩
  | minus ds hds hv => exact ⟨['-'], ds, rfl, Or.inr (Or.inr rfl), hds, hv, rfl⟩

theorem Numeral.of_signed (hsg : Sign sg) (hds : Digits ds) (hv : value ds < 2 ^ w) :
    Numeral w (sg ++ ds)
      (if sg = ['-'] then -BitVec.ofNat w (value ds) else BitVec.ofNat w (value ds)) := by
  rcases hsg with rfl | rfl | rfl
  · exact .plain ds hds hv
  · exact .plus ds hds hv
  · exact .minus ds hds hv

theorem signed_head (hsg : Sign sg) (hds : Digits ds) :
    ∃ c t, sg ++ ds = c :: t ∧ isSpace c = false := by
  rcases hsg with rfl | rfl | rfl
  · obtain _ | ⟨c, t⟩ := ds
    · exact absurd rfl hds.nonempty
    · exact ⟨c, t, rfl, isSpace_of_isDigit (hds.digit c (List.mem_cons_self ..))⟩
  · exact ⟨'+', ds, rfl, by decide⟩
  · exact ⟨'-', ds, rfl, by decide⟩

theorem getUnsigned_signed (v : BitVec w) (hsp : Blank sp) (hsg : Sign sg) (hds : Digits ds) :
    getUnsigned v { rest := sp ++ (sg ++ (ds ++ rest)) } =
      readUnsigned w (sg ++ (ds ++ rest)) := by
  obtain ⟨c, t, hct, hc⟩ := signed_head hsg hds
  have h : getUnsigned v { rest := sp ++ c :: (t ++ rest) } = _ := getUnsigned_cons v hsp hc
  rwa [← List.cons_append, ← hct, List.append_assoc] at h

theorem getUnsigned_numeral (v : BitVec w) (hsp : Blank sp) (hn : Numeral w text x)
    (hr : NoDigit rest) : getUnsigned v { rest := sp ++ (text ++ rest) } =
      (x, { rest := rest, eof := rest.isEmpty }) := by
  obtain ⟨sg, ds, rfl, hsg, hds, hv, rfl⟩ := hn.signed
  rw [List.append_assoc, getUnsigned_signed v hsp hsg hds, readUnsigned_signed hsg hds hr hv]

theorem getUnsigned_unreadable (v : BitVec w) (hsp : Blank sp) (hu : Unreadable w text) :
    ∃ x, getUnsigned v { rest := sp ++ text } = (x, { rest := [], eof := true, fail := true }) := by
  cases hu with
  | missing => exact ⟨v, by rw [List.append_nil, getUnsigned_blank v hsp]⟩
  | sign c hc =>
    refine ⟨0, ?_⟩
    have hs : isSpace c = false := by rcases hc with rfl | rfl <;> decide
    rw [getUnsigned_cons v hsp hs]
    rcases hc with rfl | rfl <;> rfl
  | large sg ds hsg hds hv =>
    have h : getUnsigned v { rest := sp ++ (sg ++ (ds ++ [])) } = _ :=
      getUnsigned_signed v hsp hsg hds
    rw [readUnsigned_large hsg hds (by simp [NoDigit]) hv, List.append_nil] at h
    exact ⟨_, h⟩

theorem unreadable_sign (hsg : Sign sg) : Unreadable w sg := by
  rcases hsg with rfl | rfl | rfl
  · exact .missing
  · exact .sign '+' (Or.inl rfl)
  · exact .sign '-' (Or.inr rfl)

theorem takeSign_cases (text : List Char) :
    ∃ sg, text = sg ++ (takeSign text).2 ∧ Sign sg := by
  obtain _ | ⟨c, t⟩ := text
  · exact ⟨[], rfl, Or.inl rfl⟩
  · by_cases hm : c = '-'
    · exact ⟨['-'], by simp [takeSign, hm], Or.inr (Or.inr rfl)⟩
    · by_cases hp : c = '+'
      · exact ⟨['+'], by simp [takeSign, hp], Or.inr (Or.inl rfl)⟩
      · exact ⟨[], by simp [takeSign, hm, hp], Or.inl rfl⟩

theorem signed_cases (w : ℕ) (text : List Char) :
    ∃ sg ds rest, text = sg ++ (ds ++ rest) ∧ Sign sg ∧ (∀ c ∈ ds, c.isDigit = true) ∧
      NoDigit rest ∧ (ds = [] → readUnsigned w text =
        (0, { rest := rest, eof := rest.isEmpty, fail := true })) := by
  obtain ⟨sg, ht, hsg⟩ := takeSign_cases text
  refine ⟨sg, (takeSign text).2.takeWhile Char.isDigit, (takeSign text).2.dropWhile Char.isDigit,
    by rw [List.takeWhile_append_dropWhile, ← ht], hsg, fun c hc => List.mem_takeWhile_imp hc, ?_,
    ?_⟩
  · intro c hc
    have := List.head?_dropWhile_not Char.isDigit (takeSign text).2
    rw [Option.mem_def.mp hc] at this
    simpa using this
  · intro hd
    simp [readUnsigned, hd]

theorem getUnsigned_cases (v : BitVec w) (text : List Char) :
    (∃ sp n rest x, text = sp ++ (n ++ rest) ∧ Blank sp ∧ Numeral w n x ∧ NoDigit rest ∧
      getUnsigned v { rest := text } = (x, { rest := rest, eof := rest.isEmpty })) ∨
    (∃ sp u x, text = sp ++ u ∧ Blank sp ∧ Unreadable w u ∧
      getUnsigned v { rest := text } = (x, { rest := [], eof := true, fail := true })) ∨
    ∃ x rest, getUnsigned v { rest := text } = (x, { rest := rest, eof := false, fail := true }) := by
  obtain ⟨sp, t, rfl, hsp, ht⟩ := blank_cases text
  obtain _ | ⟨c, t⟩ := t
  · exact Or.inr (Or.inl ⟨sp, [], v, rfl, hsp, .missing, by
      rw [List.append_nil, getUnsigned_blank v hsp]⟩)
  have hc : isSpace c = false := ht c rfl
  obtain ⟨sg, ds, rest, hct, hsg, hds, hr, hmissing⟩ := signed_cases w (c :: t)
  rw [getUnsigned_cons v hsp hc]
  by_cases hd : ds = []
  · rw [hmissing hd]
    obtain _ | ⟨d, rest⟩ := rest
    · have hu : Unreadable w (c :: t) := by
        rw [hct, hd, List.append_nil, List.append_nil]
        exact unreadable_sign hsg
      exact Or.inr (Or.inl ⟨sp, _, _, rfl, hsp, hu, rfl⟩)
    · exact Or.inr (Or.inr ⟨_, _, rfl⟩)
  · have hdig : Digits ds := ⟨hd, hds⟩
    rw [hct]
    by_cases hv : 2 ^ w ≤ value ds
    · rw [readUnsigned_large hsg hdig hr hv]
      obtain _ | ⟨d, rest⟩ := rest
      · exact Or.inr (Or.inl ⟨sp, sg ++ ds, _, by simp, hsp, .large sg ds hsg hdig hv, rfl⟩)
      · exact Or.inr (Or.inr ⟨_, _, rfl⟩)
    · have hv' := Nat.not_le.mp hv
      rw [readUnsigned_signed hsg hdig hr hv']
      exact Or.inl ⟨sp, sg ++ ds, rest, _, by rw [List.append_assoc], hsp,
        Numeral.of_signed hsg hdig hv', hr, rfl⟩

theorem sentry_length (s : InputStream) : s.sentry.2.rest.length ≤ s.rest.length := by
  unfold sentry
  split
  · have h : (s.rest.dropWhile isSpace).length ≤ s.rest.length :=
      (List.dropWhile_suffix isSpace).length_le
    split
    · exact Nat.zero_le _
    · rename_i heq
      rw [heq] at h
      exact h
  · exact le_rfl

theorem getChar_length {s s' : InputStream} (h : s.getChar = (some c, s')) :
    s'.rest.length < s.rest.length := by
  have hs := s.sentry_length
  unfold getChar at h
  split at h
  · simp at h
  · rename_i s1 heq
    rw [heq] at hs
    split at h
    · simp at h
    · rename_i d rest hd
      simp only [Prod.mk.injEq, Option.some.injEq] at h
      obtain ⟨-, rfl⟩ := h
      simp only [hd, List.length_cons] at hs
      exact hs

theorem readUnsigned_length (w : ℕ) (text : List Char) :
    (readUnsigned w text).2.rest.length ≤ text.length := by
  obtain ⟨sg, ht, -⟩ := takeSign_cases text
  have hrest : (readUnsigned w text).2.rest = (takeSign text).2.dropWhile Char.isDigit := by
    simp only [readUnsigned]
    split
    · rfl
    · split <;> rfl
  have hd : ((takeSign text).2.dropWhile Char.isDigit).length ≤ (takeSign text).2.length :=
    (List.dropWhile_suffix Char.isDigit).length_le
  have hl := congrArg List.length ht
  rw [List.length_append] at hl
  rw [hrest]
  omega

theorem getUnsigned_length (v : BitVec w) (s : InputStream) :
    (s.getUnsigned v).2.rest.length ≤ s.rest.length := by
  have hs := s.sentry_length
  unfold getUnsigned
  split
  · rename_i heq
    rwa [heq] at hs
  · rename_i s1 heq
    rw [heq] at hs
    exact (readUnsigned_length w s1.rest).trans hs

end InputStream
