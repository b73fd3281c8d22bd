import RocketDb.Format.InternalKey
import Mathlib.Data.List.Induction
import Mathlib.Data.Nat.Digits.Defs

/-! # Names of files (`db/filename.cc`)

The names of the files of a database, without its directory. A number is written with at least six digits.

* **`parseFileName_makeFileName`**, **`parseFileName_descriptor`** — names are read back.
* **`parseFileName_spec`** — nothing else is read: the names accepted are those of `IsFileName`. -/

namespace RocketDb

open List

/-! ## Writing names -/

/-- A number as `%06llu` prints it. -/
def fileNumber (n : ℕ) : Slice :=
  List.replicate (6 - (Nat.digits 10 n).length) 48 ++
    (Nat.digits 10 n).reverse.map fun d => UInt8.ofNat (48 + d)

/-- `MakeFileName`. -/
def makeFileName (number : ℕ) (suffix : Slice) : Slice := fileNumber number ++ ascii "." ++ suffix

/-- `LogFileName`. -/
def logFileName (number : ℕ) : Slice := makeFileName number (ascii "log")

/-- `TableFileName`. -/
def tableFileName (number : ℕ) : Slice := makeFileName number (ascii "ldb")

/-- `SSTTableFileName`: the name of a table in earlier versions. -/
def sstTableFileName (number : ℕ) : Slice := makeFileName number (ascii "sst")

/-- `TempFileName`. -/
def tempFileName (number : ℕ) : Slice := makeFileName number (ascii "dbtmp")

/-- `DescriptorFileName`. -/
def descriptorFileName (number : ℕ) : Slice := ascii "MANIFEST-" ++ fileNumber number

/-- `CurrentFileName`. -/
def currentFileName : Slice := ascii "CURRENT"

/-! ## Reading names -/

/-- `FileType`. -/
inductive FileType where
  | kLogFile
  | kDBLockFile
  | kTableFile
  | kDescriptorFile
  | kCurrentFile
  | kTempFile
  | kInfoLogFile
  deriving DecidableEq, Repr

/-- The loop of `ConsumeDecimalNumber`; `none` if the number needs more than 64 bits. -/
def consumeDigits : ℕ → Slice → Option (ℕ × Slice)
  | value, [] => some (value, [])
  | value, ch :: rest =>
    if ch < 48 ∨ 57 < ch then some (value, ch :: rest)
    else if (2 ^ 64 - 1) / 10 < value ∨
        value = (2 ^ 64 - 1) / 10 ∧ 48 + (2 ^ 64 - 1) % 10 < ch.toNat then none
    else consumeDigits (value * 10 + (ch.toNat - 48)) rest

/-- `ConsumeDecimalNumber`: at least one digit. -/
def consumeDecimalNumber (input : Slice) : Option (ℕ × Slice) :=
  match consumeDigits 0 input with
  | none => none
  | some (value, rest) => if rest.length < input.length then some (value, rest) else none

/-- The type of a numbered file. -/
def suffixType (suffix : Slice) : Option FileType :=
  if suffix = ascii ".log" then some .kLogFile
  else if suffix = ascii ".sst" ∨ suffix = ascii ".ldb" then some .kTableFile
  else if suffix = ascii ".dbtmp" then some .kTempFile
  else none

/-- `ParseFileName`. -/
def parseFileName (filename : Slice) : Option (ℕ × FileType) :=
  if filename = ascii "CURRENT" then some (0, .kCurrentFile)
  else if filename = ascii "LOCK" then some (0, .kDBLockFile)
  else if filename = ascii "LOG" ∨ filename = ascii "LOG.old" then some (0, .kInfoLogFile)
  else if (ascii "MANIFEST-").isPrefixOf filename then
    match consumeDecimalNumber (filename.drop (ascii "MANIFEST-").length) with
    | some (num, []) => some (num, .kDescriptorFile)
    | _ => none
  else
    match consumeDecimalNumber filename with
    | none => none
    | some (num, suffix) => (suffixType suffix).map fun type => (num, type)

/-! ## Digits -/

/-- The number that digits write. -/
def decimal (digits : Slice) : ℕ := Nat.ofDigits 10 (digits.reverse.map fun b => b.toNat - 48)

/-- The number the loop has read when it has gone on from `value` over digits. -/
def horner (value : ℕ) (digits : Slice) : ℕ := digits.foldl (fun v b => v * 10 + (b.toNat - 48)) value

/-- Every byte is a digit. -/
def Digits (digits : Slice) : Prop := ∀ d ∈ digits, 48 ≤ d.toNat ∧ d.toNat ≤ 57

theorem horner_zero (digits : Slice) : horner 0 digits = decimal digits := by
  induction digits using List.reverseRecOn with
  | nil => rfl
  | append_singleton digits d ih =>
    grind [horner, decimal, Nat.ofDigits_cons]

theorem le_horner (value : ℕ) (digits : Slice) : value ≤ horner value digits := by
  induction digits generalizing value with
  | nil => exact Nat.le_refl _
  | cons d digits ih => exact (by omega : value ≤ value * 10 + (d.toNat - 48)).trans (ih _)

theorem toNat_digit {n d : ℕ} (h : d ∈ Nat.digits 10 n) : (UInt8.ofNat (48 + d)).toNat = 48 + d := by
  have := Nat.digits_lt_base (by decide) h
  rw [UInt8.toNat_ofNat']
  omega

theorem digits_fileNumber (n : ℕ) : Digits (fileNumber n) := by
  intro d hd
  rcases mem_append.mp hd with hd | hd
  · rw [eq_of_mem_replicate hd]
    decide
  · obtain ⟨x, hx, rfl⟩ := mem_map.mp hd
    rw [mem_reverse] at hx
    rw [toNat_digit hx]
    have := Nat.digits_lt_base (by decide) hx
    omega

theorem length_fileNumber (n : ℕ) : 6 ≤ (fileNumber n).length := by
  grind [fileNumber]

/-- The digits of a number stand for it. -/
theorem horner_fileNumber (n : ℕ) : horner 0 (fileNumber n) = n := by
  have hdigits : ((Nat.digits 10 n).map fun d => UInt8.ofNat (48 + d)).map (fun b => b.toNat - 48) =
      Nat.digits 10 n := by
    rw [map_map]
    refine (map_congr_left fun d hd => ?_).trans (map_id _)
    grind [toNat_digit]
  rw [horner_zero, decimal, fileNumber, reverse_append, ← map_reverse, reverse_reverse,
    map_append, hdigits, reverse_replicate, map_replicate, Nat.ofDigits_append,
    show (48 : UInt8).toNat - 48 = 0 from rfl, Nat.ofDigits_replicate_zero, Nat.ofDigits_digits,
    Nat.mul_zero, Nat.add_zero]

theorem fileNumber_injective : Function.Injective fileNumber :=
  Function.LeftInverse.injective horner_fileNumber

variable {digits rest : Slice}

/-- `ConsumeDecimalNumber` takes the digits and no more. -/
theorem consumeDigits_append (h : Digits digits) (hrest : ∀ c ∈ rest.head?, c < 48 ∨ 57 < c) {value : ℕ}
    (hfit : horner value digits < 2 ^ 64) :
    consumeDigits value (digits ++ rest) = some (horner value digits, rest) := by
  induction digits generalizing value with
  | nil =>
    cases rest with
    | nil => rfl
    | cons c rest => rw [nil_append, consumeDigits, if_pos (hrest c rfl)]; rfl
  | cons d digits ih =>
    obtain ⟨hlow, hhigh⟩ := h d mem_cons_self
    have hle := le_horner (value * 10 + (d.toNat - 48)) digits
    have hfit' : horner (value * 10 + (d.toNat - 48)) digits < 2 ^ 64 := hfit
    rw [cons_append, consumeDigits, if_neg, if_neg]
    · exact ih (fun x hx => h x (mem_cons_of_mem d hx)) hfit'
    · omega
    · grind [UInt8.lt_iff_toNat_lt]

theorem consumeDecimalNumber_append (h : Digits digits) (hne : digits ≠ [])
    (hrest : ∀ c ∈ rest.head?, c < 48 ∨ 57 < c) (hfit : horner 0 digits < 2 ^ 64) :
    consumeDecimalNumber (digits ++ rest) = some (horner 0 digits, rest) := by
  have hlen := length_pos_iff.mpr hne
  grind [consumeDecimalNumber, consumeDigits_append]

theorem exists_digits_of_consumeDigits {value v : ℕ} {input rest : Slice} (hvalue : value < 2 ^ 64)
    (h : consumeDigits value input = some (v, rest)) :
    ∃ digits, Digits digits ∧ input = digits ++ rest ∧ horner value digits = v ∧ v < 2 ^ 64 := by
  induction input generalizing value with
  | nil =>
    cases h
    exact ⟨[], fun d hd => absurd hd not_mem_nil, rfl, rfl, hvalue⟩
  | cons ch input ih =>
    rw [consumeDigits] at h
    split_ifs at h with hother hoverflow
    · cases h
      exact ⟨[], fun d hd => absurd hd not_mem_nil, rfl, rfl, hvalue⟩
    · rw [UInt8.lt_iff_toNat_lt, UInt8.lt_iff_toNat_lt, show (48 : UInt8).toNat = 48 from rfl,
        show (57 : UInt8).toNat = 57 from rfl] at hother
      obtain ⟨digits, hdigits, rfl, hv, hlt⟩ := ih (by omega) h
      refine ⟨ch :: digits, fun d hd => ?_, rfl, hv, hlt⟩
      rcases mem_cons.mp hd with rfl | hd
      · omega
      · exact hdigits d hd

/-- What it takes are digits of a number below `2 ^ 64`. -/
theorem exists_digits_of_consumeDecimalNumber {v : ℕ} {input rest : Slice}
    (h : consumeDecimalNumber input = some (v, rest)) :
    ∃ digits, digits ≠ [] ∧ Digits digits ∧ input = digits ++ rest ∧ decimal digits = v ∧ v < 2 ^ 64 := by
  rw [consumeDecimalNumber] at h
  rcases hloop : consumeDigits 0 input with _ | ⟨value, rest'⟩
  · rw [hloop] at h
    cases h
  · rw [hloop] at h
    obtain ⟨hlt, ⟨⟩⟩ := Option.ite_none_right_eq_some.mp h
    obtain ⟨digits, hdigits, rfl, hv, hfit⟩ := exists_digits_of_consumeDigits (by decide) hloop
    grind [horner_zero]

/-! ## Names are read back -/

theorem fileNumber_ne_nil (n : ℕ) : fileNumber n ≠ [] :=
  ne_nil_of_length_pos (Nat.lt_of_lt_of_le (by decide) (length_fileNumber n))

theorem digits_append_ne {digits : Slice} (hdigits : Digits digits) (hne : digits ≠ []) (rest : Slice)
    {word : Slice} (c : UInt8) (h : word.head? = some c) (hc : 57 < c.toNat) : digits ++ rest ≠ word := by
  rintro rfl
  obtain ⟨d, digits, rfl⟩ := exists_cons_of_ne_nil hne
  obtain rfl := Option.some.inj (h : some d = some c)
  have := (hdigits d mem_cons_self).2
  omega

theorem parseFileName_digits_append {digits suffix : Slice} (hdigits : Digits digits) (hne : digits ≠ [])
    (hsuffix : ∀ c ∈ suffix.head?, c < 48 ∨ 57 < c) (hfit : horner 0 digits < 2 ^ 64) :
    parseFileName (digits ++ suffix) = (suffixType suffix).map fun type => (horner 0 digits, type) := by
  have hword {word : Slice} (c : UInt8) (h : word.head? = some c) (hc : 57 < c.toNat) :
      digits ++ suffix ≠ word := digits_append_ne hdigits hne suffix c h hc
  have hmanifest : (ascii "MANIFEST-").isPrefixOf (digits ++ suffix) = false := by
    rw [← Bool.not_eq_true, isPrefixOf_iff_prefix]
    rintro ⟨rest, hrest⟩
    exact hword 77 (rfl : (ascii "MANIFEST-" ++ rest).head? = some 77) (by decide) hrest.symm
  rw [parseFileName, if_neg (hword 67 (by decide) (by decide)), if_neg (hword 76 (by decide) (by decide)),
    if_neg (not_or.mpr ⟨hword 76 (by decide) (by decide), hword 76 (by decide) (by decide)⟩), hmanifest,
    if_neg Bool.false_ne_true, consumeDecimalNumber_append hdigits hne hsuffix hfit]

theorem parseFileName_manifest_append {digits : Slice} (hdigits : Digits digits) (hne : digits ≠ [])
    (hfit : horner 0 digits < 2 ^ 64) :
    parseFileName (ascii "MANIFEST-" ++ digits) = some (horner 0 digits, .kDescriptorFile) := by
  have hword {word : Slice} (c : UInt8) (h : word.head? = some c) (hc : 77 ≠ c) :
      ascii "MANIFEST-" ++ digits ≠ word := by
    rintro rfl
    exact hc (Option.some.inj h)
  have hmanifest : (ascii "MANIFEST-").isPrefixOf (ascii "MANIFEST-" ++ digits) = true :=
    isPrefixOf_iff_prefix.mpr (prefix_append _ _)
  have hnumber : consumeDecimalNumber digits = some (horner 0 digits, []) := by
    nth_rewrite 1 [← append_nil digits]
    exact consumeDecimalNumber_append hdigits hne (by simp) hfit
  rw [parseFileName, if_neg (hword 67 (by decide) (by decide)), if_neg (hword 76 (by decide) (by decide)),
    if_neg (not_or.mpr ⟨hword 76 (by decide) (by decide), hword 76 (by decide) (by decide)⟩), hmanifest,
    if_pos rfl, drop_left, hnumber]

variable {n : ℕ}

/-- **The names of logs, tables and temporary files are read back.** -/
theorem parseFileName_makeFileName (hn : n < 2 ^ 64) (suffix : Slice) :
    parseFileName (makeFileName n suffix) =
      (suffixType (ascii "." ++ suffix)).map fun type => (n, type) := by
  rw [makeFileName, append_assoc, parseFileName_digits_append (digits_fileNumber n)
    (fileNumber_ne_nil n) ?_ (by rwa [horner_fileNumber]), horner_fileNumber]
  intro c hc
  obtain rfl := Option.some.inj (hc : some 46 = some c)
  exact Or.inl (by decide)

/-- **The names of MANIFESTs are read back.** -/
theorem parseFileName_descriptor (hn : n < 2 ^ 64) :
    parseFileName (descriptorFileName n) = some (n, .kDescriptorFile) := by
  rw [descriptorFileName, parseFileName_manifest_append (digits_fileNumber n) (fileNumber_ne_nil n)
    (by rwa [horner_fileNumber]), horner_fileNumber]

theorem descriptorFileName_inj {m n : ℕ} : descriptorFileName m = descriptorFileName n ↔ m = n :=
  ⟨fun h => fileNumber_injective (append_cancel_left h), fun h => h ▸ rfl⟩

theorem descriptorFileName_ne_current (n : ℕ) : descriptorFileName n ≠ currentFileName := by
  intro h
  exact absurd (congrArg List.head? h) (by decide : some 77 ≠ currentFileName.head?)

theorem tempFileName_ne_current (n : ℕ) : tempFileName n ≠ currentFileName := by
  rw [tempFileName, makeFileName, append_assoc]
  exact digits_append_ne (digits_fileNumber n) (fileNumber_ne_nil n) _ 67 (by decide) (by decide)

theorem tempFileName_ne_descriptor (m n : ℕ) : tempFileName m ≠ descriptorFileName n := by
  rw [tempFileName, makeFileName, append_assoc]
  exact digits_append_ne (digits_fileNumber m) (fileNumber_ne_nil m) _ 77 rfl (by decide)

/-! ## The names that are read -/

/-- The types of numbered files. -/
def numberedSuffixes : List (Slice × FileType) :=
  [(ascii ".log", .kLogFile), (ascii ".sst", .kTableFile), (ascii ".ldb", .kTableFile),
    (ascii ".dbtmp", .kTempFile)]

/-- **The names of the files of a database**, with their numbers and types. -/
inductive IsFileName : Slice → ℕ → FileType → Prop
  | current : IsFileName (ascii "CURRENT") 0 .kCurrentFile
  | lock : IsFileName (ascii "LOCK") 0 .kDBLockFile
  | infoLog : IsFileName (ascii "LOG") 0 .kInfoLogFile
  | oldInfoLog : IsFileName (ascii "LOG.old") 0 .kInfoLogFile
  | manifest (digits : Slice) (hne : digits ≠ []) (hdigits : Digits digits) (hfit : decimal digits < 2 ^ 64) :
      IsFileName (ascii "MANIFEST-" ++ digits) (decimal digits) .kDescriptorFile
  | numbered (digits suffix : Slice) (type : FileType) (hne : digits ≠ []) (hdigits : Digits digits)
      (hfit : decimal digits < 2 ^ 64) (hsuffix : (suffix, type) ∈ numberedSuffixes) :
      IsFileName (digits ++ suffix) (decimal digits) type

variable {type : FileType}

theorem suffixType_eq_some_iff {suffix : Slice} :
    suffixType suffix = some type ↔ (suffix, type) ∈ numberedSuffixes := by
  constructor
  · intro h
    rw [suffixType] at h
    split_ifs at h with hlog htable htemp
    · cases h
      rw [hlog]
      decide
    · cases h
      rcases htable with htable | htable <;> rw [htable] <;> decide
    · cases h
      rw [htemp]
      decide
  · have hall : ∀ s ∈ numberedSuffixes, suffixType s.1 = some s.2 := by decide
    exact hall (suffix, type)

variable {name : Slice}

/-- **Only file names are accepted.** -/
theorem isFileName_of_parseFileName (h : parseFileName name = some (n, type)) : IsFileName name n type := by
  rw [parseFileName] at h
  split_ifs at h with hcurrent hlock hlog hmanifest
  · cases h
    rw [hcurrent]
    exact .current
  · cases h
    rw [hlock]
    exact .lock
  · cases h
    rcases hlog with hlog | hlog <;> rw [hlog]
    · exact .infoLog
    · exact .oldInfoLog
  · obtain ⟨rest, rfl⟩ := isPrefixOf_iff_prefix.mp hmanifest
    rw [drop_left] at h
    rcases hnumber : consumeDecimalNumber rest with _ | ⟨num, _ | ⟨c, suffix⟩⟩
    · rw [hnumber] at h
      cases h
    · rw [hnumber] at h
      cases h
      obtain ⟨digits, hne, hdigits, rfl, rfl, hfit⟩ := exists_digits_of_consumeDecimalNumber hnumber
      rw [append_nil]
      exact .manifest digits hne hdigits hfit
    · rw [hnumber] at h
      cases h
  · rcases hnumber : consumeDecimalNumber name with _ | ⟨num, suffix⟩
    · rw [hnumber] at h
      cases h
    · rw [hnumber] at h
      obtain ⟨type, htype, ⟨⟩⟩ := Option.map_eq_some_iff.mp h
      obtain ⟨digits, hne, hdigits, rfl, rfl, hfit⟩ := exists_digits_of_consumeDecimalNumber hnumber
      exact .numbered digits suffix _ hne hdigits hfit (suffixType_eq_some_iff.mp htype)

theorem parseFileName_of_isFileName (h : IsFileName name n type) : parseFileName name = some (n, type) := by
  cases h with
  | current => decide
  | lock => decide
  | infoLog => decide
  | oldInfoLog => decide
  | manifest digits hne hdigits hfit =>
    rw [← horner_zero] at hfit ⊢
    exact parseFileName_manifest_append hdigits hne hfit
  | numbered digits suffix type hne hdigits hfit hsuffix =>
    rw [← horner_zero] at hfit ⊢
    rw [parseFileName_digits_append hdigits hne _ hfit, suffixType_eq_some_iff.mpr hsuffix]
    · rfl
    · -- all suffixes start with a dot
      have hdot : ∀ s ∈ numberedSuffixes, ∀ c ∈ s.1.head?, c < 48 ∨ 57 < c := by
        decide +kernel
      exact hdot _ hsuffix

/-- **`ParseFileName` reads exactly the names of files**, and gives back the numbers of the names that are
written. -/
theorem parseFileName_spec :
    (∀ name n type, parseFileName name = some (n, type) ↔ IsFileName name n type) ∧
    ∀ n : UInt64,
      parseFileName (logFileName n.toNat) = some (n.toNat, .kLogFile) ∧
      parseFileName (tableFileName n.toNat) = some (n.toNat, .kTableFile) ∧
      parseFileName (sstTableFileName n.toNat) = some (n.toNat, .kTableFile) ∧
      parseFileName (tempFileName n.toNat) = some (n.toNat, .kTempFile) ∧
      parseFileName (descriptorFileName n.toNat) = some (n.toNat, .kDescriptorFile) := by
  refine ⟨fun name n type => ⟨isFileName_of_parseFileName, parseFileName_of_isFileName⟩, fun n => ?_⟩
  have hn : n.toNat < 2 ^ 64 := n.toNat_lt
  exact ⟨parseFileName_makeFileName hn (ascii "log"), parseFileName_makeFileName hn (ascii "ldb"),
    parseFileName_makeFileName hn (ascii "sst"), parseFileName_makeFileName hn (ascii "dbtmp"),
    parseFileName_descriptor hn⟩

end RocketDb
