import Mathlib.Algebra.Group.Int.Defs
import Mathlib.Algebra.Group.Nat.Defs
import Outline.Config.Environment
import Outline.Proofs.Outcome

/-!
# What the environment says

A setting is written as digits with a sign or none, and with blanks around them or none; the forms
are stated here for whole texts, so they say which texts are accepted and not how they are read.
Each of the three readers recognizes its form. A form has no blanks of its own and is never empty,
so trimming finds it in a text whatever stands around it.

The variables are read one after another and the limits checked at the end, so the fault that is
reported is the first one of that order: `FirstFault` says for each fault what must have gone well
before it. Numbers written in decimal have the form their reader asks for.

Main results:

* `Config.readSetting_eq_ok_iff`, `Config.readSetting_eq_error_iff` — what one variable gives;
* `Config.ofVariables_exact` — what all three give, and which fault is reported.
-/

namespace Outline

namespace Config

open Text (isBlank trim)

/-! ## Forms of numbers -/

/-- The digits, at least one, are `n` in decimal; zeros may stand in front. -/
def DigitsOf (ds : List Char) (n : Nat) : Prop :=
  ds ≠ [] ∧ (∀ c ∈ ds, c.isDigit = true) ∧ n = Nat.ofDigitChars 10 ds 0

/-- Digits after a plus sign or none. -/
def Unsigned (cs : List Char) (n : Nat) : Prop :=
  ∃ ds, DigitsOf ds n ∧ (cs = ds ∨ cs = '+' :: ds)

/-- Digits after a plus sign, a minus sign or none. -/
def Signed (cs : List Char) (n : Int) : Prop :=
  (∃ k : Nat, Unsigned cs k ∧ n = k) ∨ ∃ ds, ∃ k : Nat, DigitsOf ds k ∧ cs = '-' :: ds ∧ n = -k

/-- The form of a gap. The value lies between the bounds that a key carries. -/
def GapForm (cs : List Char) (k : SortKey) : Prop :=
  Signed cs k.val

def RetriesForm (cs : List Char) (n : Nat) : Prop :=
  Unsigned cs n ∧ n < 2 ^ 32

/-- The form of a time limit: a text always sets one. -/
def TimeoutForm (cs : List Char) (t : Option Nat) : Prop :=
  ∃ n, t = some n ∧ Unsigned cs n ∧ n < 2 ^ 64

/-! ## Readers of the forms -/

/-- The reader of digits accepts one digit or more, and nothing else. -/
theorem digits?_eq_some_iff {cs : List Char} {n : Nat} : digits? cs = some n ↔ DigitsOf cs n := by
  have hdigit : (cs.all fun c => '0' ≤ c && c ≤ '9') = true ↔ ∀ c ∈ cs, c.isDigit = true := by
    simp only [List.all_eq_true, Char.isDigit, Char.le_def, ge_iff_le]
  unfold digits? DigitsOf
  rw [← hdigit]
  split
  · next h => simp [h, eq_comm]
  · next h => exact ⟨nofun, fun hn => absurd ⟨hn.1, hn.2.1⟩ h⟩

/-- A sign is no digit. -/
theorem DigitsOf.ne_cons {ds rest : List Char} {sign : Char} {n : Nat} (h : DigitsOf ds n)
    (hsign : sign.isDigit = false) : ds ≠ sign :: rest := by
  rintro rfl
  rw [h.2.1 sign List.mem_cons_self] at hsign
  cases hsign

/-- A plus may stand before the digits. -/
theorem unsigned?_eq_some_iff {cs : List Char} {n : Nat} :
    unsigned? cs = some n ↔ Unsigned cs n := by
  unfold unsigned?
  split
  · next rest =>
    rw [digits?_eq_some_iff]
    constructor
    · exact fun h => ⟨rest, h, .inr rfl⟩
    -- a text that begins with a sign is not digits alone
    · rintro ⟨ds, hds, rfl | heq⟩
      · exact absurd rfl (hds.ne_cons rfl)
      · rwa [(List.cons.inj heq).2]
  · next hplus =>
    rw [digits?_eq_some_iff]
    constructor
    · exact fun h => ⟨cs, h, .inl rfl⟩
    · rintro ⟨ds, hds, rfl | rfl⟩
      · exact hds
      · exact absurd rfl (hplus ds)

/-- And so may a minus, where numbers may be negative. -/
theorem signed?_eq_some_iff {cs : List Char} {n : Int} : signed? cs = some n ↔ Signed cs n := by
  unfold signed?
  split
  · next rest =>
    simp only [Option.map_eq_some_iff, Option.bind_eq_bind, Option.bind_eq_some_iff,
      Option.pure_def, Option.some.injEq, digits?_eq_some_iff]
    constructor
    · rintro ⟨_, ⟨k, hk, rfl⟩, rfl⟩
      exact .inr ⟨rest, k, hk, rfl, rfl⟩
    -- behind a minus no second sign may stand
    · rintro (⟨k, ⟨ds, hds, rfl | heq⟩, -⟩ | ⟨ds, k, hds, heq, rfl⟩)
      · exact absurd rfl (hds.ne_cons rfl)
      · cases heq
      · cases heq
        exact ⟨k, ⟨k, hds, rfl⟩, rfl⟩
  · next hminus =>
    simp only [Option.map_eq_some_iff, Option.bind_eq_bind, Option.bind_eq_some_iff,
      Option.pure_def, Option.some.injEq, unsigned?_eq_some_iff]
    constructor
    · rintro ⟨_, ⟨k, hk, rfl⟩, rfl⟩
      exact .inl ⟨k, hk, rfl⟩
    · rintro (⟨k, hk, rfl⟩ | ⟨ds, k, -, rfl, -⟩)
      · exact ⟨k, ⟨k, hk, rfl⟩, rfl⟩
      · exact absurd rfl (hminus ds)

/-- A number that is too large for its type is refused. -/
theorem parseBelow?_eq_some_iff {bound : Nat} {cs : List Char} {n : Nat} :
    parseBelow? bound cs = some n ↔ Unsigned cs n ∧ n < bound := by
  rw [parseBelow?, Option.filter_eq_some_iff, unsigned?_eq_some_iff, decide_eq_true_eq]

/-- A gap is read as a key, whatever its sign; the check of the configuration comes later. -/
theorem parseKey?_eq_some_iff {cs : List Char} {k : SortKey} :
    parseKey? cs = some k ↔ GapForm cs k := by
  rw [parseKey?, Option.bind_eq_bind, Option.bind_eq_some_iff]
  simp only [signed?_eq_some_iff, SortKey.ofInt?_eq_some_iff]
  constructor
  · rintro ⟨n, hn, rfl⟩
    exact hn
  · exact fun h => ⟨k.val, h, rfl⟩

/-! ## Blanks around a form -/

/-- Not empty, and without blanks. -/
def Plain (cs : List Char) : Prop :=
  cs ≠ [] ∧ ∀ c ∈ cs, isBlank c = false

/-- There is no white space among digits. -/
theorem DigitsOf.plain {ds : List Char} {n : Nat} (h : DigitsOf ds n) : Plain ds :=
  ⟨h.1, fun c hc => Text.isBlank_of_isDigit (h.2.1 c hc)⟩

/-- Nor in a sign. -/
theorem Plain.cons {c : Char} {cs : List Char} (h : Plain cs) (hc : isBlank c = false) :
    Plain (c :: cs) :=
  ⟨List.cons_ne_nil c cs, List.forall_mem_cons.2 ⟨hc, h.2⟩⟩

/-- So the accepted texts have none inside or around them, -/
theorem Unsigned.plain {cs : List Char} {n : Nat} (h : Unsigned cs n) : Plain cs := by
  obtain ⟨ds, hds, rfl | rfl⟩ := h
  · exact hds.plain
  · exact hds.plain.cons rfl

/-- with a sign or without. -/
theorem Signed.plain {cs : List Char} {n : Int} (h : Signed cs n) : Plain cs := by
  obtain ⟨k, hk, -⟩ | ⟨ds, k, hds, rfl, -⟩ := h
  · exact hk.plain
  · exact hds.plain.cons rfl

/-- The text has the form once the blanks on both sides of it are set aside. -/
def Around (Form : List Char → Prop) (text : String) : Prop :=
  ∃ before cs after, text.toList = before ++ (cs ++ after) ∧
    (∀ c ∈ before, isBlank c = true) ∧ (∀ c ∈ after, isBlank c = true) ∧ Form cs

/-- A text with blanks around an accepted one is a text that is accepted once it is trimmed. -/
theorem around_iff_trim {Form : List Char → Prop} (hplain : ∀ cs, Form cs → Plain cs)
    {text : String} : Around Form text ↔ Form (trim text.toList) := by
  constructor
  · rintro ⟨before, cs, after, htext, hbefore, hafter, hform⟩
    obtain ⟨hne, hcs⟩ := hplain cs hform
    rwa [htext, Text.trim_append hbefore hafter hne hcs]
  · intro hform
    obtain ⟨before, after, htext, hbefore, hafter⟩ := Text.exists_eq_trim text.toList
    exact ⟨before, _, after, htext, hbefore, hafter, hform⟩

/-! ## One variable -/

/-- The reader accepts the texts of the form, which are plain, and gives what they stand for. -/
structure Recognizes {α : Type} (parse : List Char → Option α) (Form : List Char → α → Prop) :
    Prop where
  iff   : ∀ {cs a}, parse cs = some a ↔ Form cs a
  plain : ∀ {cs a}, Form cs a → Plain cs

/-- The reader of gaps recognizes the form of gaps. -/
theorem recognizes_gap : Recognizes parseKey? GapForm :=
  ⟨parseKey?_eq_some_iff, Signed.plain⟩

/-- The number of retries has to fit in 32 bits. -/
theorem recognizes_retries : Recognizes (parseBelow? (2 ^ 32)) RetriesForm :=
  ⟨parseBelow?_eq_some_iff, fun h => h.1.plain⟩

/-- The time limit has to fit in 64 bits, and a text always stands for some limit. -/
theorem recognizes_timeout :
    Recognizes (fun cs => (parseBelow? (2 ^ 64) cs).map some) TimeoutForm where
  iff {cs t} := by
    rw [Option.map_eq_some_iff, TimeoutForm]
    simp only [parseBelow?_eq_some_iff]
    exact exists_congr fun n => by rw [and_comm, eq_comm]
  plain := fun ⟨_, _, h, _⟩ => h.plain

variable {α : Type} {lookup : String → Option String} {setting : String}
  {Form : List Char → α → Prop} {parse : List Char → Option α} {default a : α}

/-- The setting is `a`: its text stands for `a`, or it is not set and `a` is the default. -/
def Says (lookup : String → Option String) (setting : String) (Form : List Char → α → Prop)
    (default a : α) : Prop :=
  match lookup setting with
  | none => a = default
  | some text => Around (Form · a) text

/-- The setting has a text that stands for nothing. -/
def Garbled (lookup : String → Option String) (setting : String) (Form : List Char → α → Prop)
    (text : String) : Prop :=
  lookup setting = some text ∧ ∀ a, ¬Around (Form · a) text

/-- What a reader recognizes it also recognizes between blanks, since it is given the trimmed text.
-/
theorem Recognizes.around_iff (h : Recognizes parse Form) {text : String} :
    Around (Form · a) text ↔ parse (trim text.toList) = some a := by
  rw [h.iff, around_iff_trim fun _ => h.plain]

/-- A setting has the value that its variable says, or the default if the variable is missing or
blank. -/
theorem readSetting_eq_ok_iff (h : Recognizes parse Form) :
    readSetting lookup setting parse default = .ok a ↔ Says lookup setting Form default a := by
  unfold readSetting Says
  cases lookup setting with
  | none => simp only [Except.ok.injEq, eq_comm]
  | some text =>
    simp only [h.around_iff]
    split
    · next b heq => rw [heq, Except.ok.injEq, Option.some.injEq]
    · next heq => simp [heq]

/-- It is refused for a text that is neither blank nor of the form, and the refusal quotes that
text. -/
theorem readSetting_eq_error_iff (h : Recognizes parse Form) {fault : ConfigFault} :
    readSetting lookup setting parse default = .error fault ↔
      ∃ text, Garbled lookup setting Form text ∧ fault = .badValue setting text := by
  unfold readSetting Garbled
  split
  · next heq => simp [heq]
  · next text heq =>
    simp only [heq, Option.some.injEq, h.around_iff]
    split
    · next b hb =>
      refine ⟨nofun, ?_⟩
      rintro ⟨_, ⟨rfl, hnone⟩, -⟩
      exact absurd hb (hnone b)
    · next hnone =>
      constructor
      · rintro ⟨⟩
        exact ⟨text, ⟨rfl, by simp [hnone]⟩, rfl⟩
      · rintro ⟨_, ⟨rfl, -⟩, rfl⟩
        rfl

/-! ## All three -/

/-- The values of the configuration are those that the variables give. -/
structure Describes (lookup : String → Option String) (c : Config) : Prop where
  gap     : Says lookup gapVariable GapForm standard.sortGap c.sortGap
  retries : Says lookup retriesVariable RetriesForm standard.conflictRetries c.conflictRetries
  timeout : Says lookup timeoutVariable TimeoutForm standard.timeout c.timeout

/-- The first limit that the configuration breaks, as a fault. -/
inductive Breaks (c : Config) : ConfigFault → Prop
  | gap (hgap : c.sortGap.val < 2) : Breaks c (.smallGap c.sortGap)
  | retries (hgap : 2 ≤ c.sortGap.val) (hretries : maxRetries < c.conflictRetries) :
    Breaks c .manyRetries
  | timeout (hgap : 2 ≤ c.sortGap.val) (hretries : c.conflictRetries ≤ maxRetries)
    (htimeout : c.timeout = some 0) : Breaks c .noTime

/-- The first thing that is wrong with the variables: a text that cannot be read, in the order of
the variables, and a broken limit when all of them can. -/
inductive FirstFault (lookup : String → Option String) : ConfigFault → Prop
  | gap {text : String} (htext : Garbled lookup gapVariable GapForm text) :
    FirstFault lookup (.badValue gapVariable text)
  | retries {k : SortKey} {text : String}
    (hgap : Says lookup gapVariable GapForm standard.sortGap k)
    (htext : Garbled lookup retriesVariable RetriesForm text) :
    FirstFault lookup (.badValue retriesVariable text)
  | timeout {k : SortKey} {n : Nat} {text : String}
    (hgap : Says lookup gapVariable GapForm standard.sortGap k)
    (hretries : Says lookup retriesVariable RetriesForm standard.conflictRetries n)
    (htext : Garbled lookup timeoutVariable TimeoutForm text) :
    FirstFault lookup (.badValue timeoutVariable text)
  | limit {c : Config} {fault : ConfigFault} (hc : Describes lookup c) (hfault : Breaks c fault) :
    FirstFault lookup fault

/-- The check refuses a gap that is too small before it looks at the number of retries. -/
theorem check_eq_error_iff {c : Config} {fault : ConfigFault} :
    c.check = .error fault ↔ Breaks c fault := by
  constructor
  · unfold check
    intro h
    split at h
    · next hgap =>
      cases h
      exact .gap hgap
    · next hgap =>
      split at h
      · next hretries =>
        cases h
        exact .retries (Int.not_lt.1 hgap) hretries
      · next hretries =>
        split at h
        · next htimeout =>
          cases h
          exact .timeout (Int.not_lt.1 hgap) (Nat.not_lt.1 hretries) htimeout
        · cases h
  · rintro (hgap | ⟨hgap, hretries⟩ | ⟨hgap, hretries, htimeout⟩)
    · rw [check, if_pos hgap]
    · rw [check, if_neg (Int.not_lt.2 hgap), if_pos hretries]
    · rw [check, if_neg (Int.not_lt.2 hgap), if_neg (Nat.not_lt.2 hretries), if_pos htimeout]

/-- All variables are read, and then the whole configuration is checked. -/
theorem ofVariables_eq_ok_iff {c : Config} :
    ofVariables lookup = .ok c ↔ Describes lookup c ∧ c.check = .ok () := by
  simp only [ofVariables, bind_eq_ok_iff, pure_eq_ok_iff, readSetting_eq_ok_iff recognizes_gap,
    readSetting_eq_ok_iff recognizes_retries, readSetting_eq_ok_iff recognizes_timeout]
  constructor
  · rintro ⟨k, hgap, n, hretries, t, htimeout, ⟨⟩, hcheck, rfl⟩
    exact ⟨⟨hgap, hretries, htimeout⟩, hcheck⟩
  · rintro ⟨⟨hgap, hretries, htimeout⟩, hcheck⟩
    exact ⟨_, hgap, _, hretries, _, htimeout, (), hcheck, rfl⟩

/-- The variables are read in a fixed order, so the first that is garbled is the one that is named.
-/
theorem ofVariables_eq_error_iff {fault : ConfigFault} :
    ofVariables lookup = .error fault ↔ FirstFault lookup fault := by
  simp only [ofVariables, bind_eq_error_iff, readSetting_eq_ok_iff recognizes_gap,
    readSetting_eq_ok_iff recognizes_retries, readSetting_eq_ok_iff recognizes_timeout,
    readSetting_eq_error_iff recognizes_gap, readSetting_eq_error_iff recognizes_retries,
    readSetting_eq_error_iff recognizes_timeout, check_eq_error_iff]
  constructor
  -- the sequence stops at a variable or at the check, and all before it went well
  · rintro (⟨text, htext, rfl⟩ | ⟨k, hgap, ⟨text, htext, rfl⟩ | ⟨n, hretries,
      ⟨text, htext, rfl⟩ | ⟨t, htimeout, hfault | ⟨_, -, hdone⟩⟩⟩⟩)
    · exact .gap htext
    · exact .retries hgap htext
    · exact .timeout hgap hretries htext
    · exact .limit ⟨hgap, hretries, htimeout⟩ hfault
    · cases hdone
  · rintro (htext | ⟨hgap, htext⟩ | ⟨hgap, hretries, htext⟩ | ⟨⟨hgap, hretries, htimeout⟩, hfault⟩)
    · exact .inl ⟨_, htext, rfl⟩
    · exact .inr ⟨_, hgap, .inl ⟨_, htext, rfl⟩⟩
    · exact .inr ⟨_, hgap, .inr ⟨_, hretries, .inl ⟨_, htext, rfl⟩⟩⟩
    · exact .inr ⟨_, hgap, .inr ⟨_, hretries, .inr ⟨_, htimeout, .inl hfault⟩⟩⟩

/-! ## Numbers written back -/

/-- The variables hold the numbers of the configuration in decimal. -/
structure Writes (lookup : String → Option String) (c : Config) : Prop where
  gap     : lookup gapVariable = some (toString c.sortGap)
  retries : lookup retriesVariable = some (toString c.conflictRetries)
  timeout : lookup timeoutVariable = c.timeout.map toString

/-- Decimal digits that are written are digits that are read. -/
theorem digitsOf_toDigits (n : Nat) : DigitsOf (Nat.toDigits 10 n) n :=
  ⟨Nat.toDigits_ne_nil, fun _ => Nat.isDigit_of_mem_toDigits (by decide) (by decide),
    Nat.ofDigitChars_ten_toDigits.symm⟩

/-- So a natural number reads back from its text, -/
theorem unsigned_toString (n : Nat) : Unsigned (toString n).toList n := by
  rw [Nat.toString_eq_repr, Nat.toList_repr]
  exact ⟨_, digitsOf_toDigits n, .inl rfl⟩

/-- and so does an integer. -/
theorem signed_toString (n : Int) : Signed (toString n).toList n := by
  rw [Int.toString_eq_repr, Int.repr_eq_if]
  split
  · next hpos => exact .inl ⟨n.toNat, unsigned_toString n.toNat, (Int.toNat_of_nonneg hpos).symm⟩
  · next hneg =>
    rw [String.toList_append, Nat.toList_repr]
    exact .inr ⟨_, (-n).toNat, digitsOf_toDigits (-n).toNat, rfl, by omega⟩

/-- A text without blanks around the form. -/
theorem around_self {Form : List Char → Prop} {text : String} (h : Form text.toList) :
    Around Form text :=
  ⟨[], text.toList, [], by rw [List.append_nil, List.nil_append], nofun, nofun, h⟩

/-- Variables that have been written for a configuration describe it. -/
theorem Writes.describes {c : Config} (h : Writes lookup c) (hretries : c.conflictRetries < 2 ^ 32)
    (htimeout : ∀ n, c.timeout = some n → n < 2 ^ 64) : Describes lookup c where
  gap := by
    rw [Says, h.gap]
    exact around_self (signed_toString c.sortGap.val)
  retries := by
    rw [Says, h.retries]
    exact around_self ⟨unsigned_toString c.conflictRetries, hretries⟩
  timeout := by
    rw [Says, h.timeout]
    cases hlimit : c.timeout with
    | none => rfl
    | some n => exact around_self ⟨n, rfl, unsigned_toString n, htimeout n hlimit⟩

/-- Whatever texts the variables hold, a configuration is accepted exactly when each of them that
is set has the form of its setting and the values keep the limits; it is then the one that the
variables describe, it passes its check, and its gap is used as it is. Otherwise the first thing
that is wrong is reported, a text as it stands in its variable. An accepted configuration written
into the variables is read back. -/
theorem ofVariables_exact (lookup : String → Option String) :
    (∀ c, ofVariables lookup = .ok c ↔ Describes lookup c ∧
      2 ≤ c.sortGap.val ∧ c.conflictRetries ≤ 16 ∧ c.timeout ≠ some 0) ∧
    (∀ c, ofVariables lookup = .ok c → c.check = .ok () ∧ c.gap.size = c.sortGap) ∧
    (∀ fault, ofVariables lookup = .error fault ↔ FirstFault lookup fault) ∧
    (∀ setting text, ofVariables lookup = .error (.badValue setting text) →
      lookup setting = some text ∧ (ConfigFault.badValue setting text).message =
        s!"{setting} has an invalid value: '{text}'") ∧
    ∀ c, c.check = .ok () → (∀ n, c.timeout = some n → n < 2 ^ 64) → Writes lookup c →
      ofVariables lookup = .ok c := by
  refine ⟨fun c => ?_, fun c hc => ?_, fun fault => ofVariables_eq_error_iff,
    fun setting text herror => ⟨?_, rfl⟩, fun c hcheck htimeout hwrites => ?_⟩
  · rw [ofVariables_eq_ok_iff, check_eq_ok_iff]
    rfl
  · have hcheck := (ofVariables_eq_ok_iff.1 hc).2
    exact ⟨hcheck, gap_size hcheck⟩
  · cases ofVariables_eq_error_iff.1 herror with
    | gap htext => exact htext.1
    | retries _ htext => exact htext.1
    | timeout _ _ htext => exact htext.1
    | limit _ hfault => cases hfault
  -- the limit is far below what a text may say
  · have hretries : c.conflictRetries < 2 ^ 32 :=
      Nat.lt_of_le_of_lt (check_eq_ok_iff.1 hcheck).2.1 (by decide)
    exact ofVariables_eq_ok_iff.2 ⟨hwrites.describes hretries htimeout, hcheck⟩

end Config

namespace Sample

open Config

/-- The greatest values that are accepted. -/
def greatest : Config :=
  ⟨(SortKey.ofInt? (2 ^ 63 - 1)).getD .zero, 16, some (2 ^ 64 - 1)⟩

/-- Variables that hold `greatest`, but for the time limit. -/
def limits (timeout setting : String) : Option String :=
  if setting = gapVariable then some "9223372036854775807"
  else if setting = retriesVariable then some "16"
  else if setting = timeoutVariable then some timeout
  else none

end Sample

namespace Config

open Sample (greatest limits)

/-- The greatest values are read back, and with a time limit of one more it is the limit that is
reported, with the blanks and the sign it was written with. -/
theorem ofVariables_exact_limits :
    ofVariables (limits "18446744073709551615") = .ok greatest ∧
    FirstFault (limits "  +18446744073709551616")
      (.badValue timeoutVariable "  +18446744073709551616") :=
  ⟨(ofVariables_exact _).2.2.2.2 greatest (check_eq_ok_iff.2 (by decide)) (by simp [greatest])
      ⟨by decide +kernel, by decide +kernel, by decide +kernel⟩,
    ((ofVariables_exact _).2.2.1 _).1 (by rfl)⟩

end Config

end Outline
