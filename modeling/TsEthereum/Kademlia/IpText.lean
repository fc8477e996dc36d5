-- SUMMARY: The text forms of IPv4 and IPv6 addresses as regular expressions and sections, and what is written for the words of an address.
import Mathlib.Data.List.TakeWhile
import TsEthereum.Base.Regex
import TsEthereum.Utils.DB

/-!
# Texts of IP addresses

Texts are lists of characters. The functions are those of one argument: the bytes that
`ipToString` gets begin their buffer, and `ipToBytes` makes a new array. The hexadecimal
text of bytes is a parameter, since it comes from another package.
-/

namespace IpText

open Regex

/-! ## Formats -/

def digit : Regex := .char Char.isDigit

/-- A hexadecimal digit of either case. -/
def isHex (c : Char) : Bool := c.isDigit || ('a' ≤ c && c ≤ 'f') || ('A' ≤ c && c ≤ 'F')

def colons : Regex := .seq (lit ':') (lit ':')

/-- `/^(\d{1,3}\.){3,3}\d{1,3}$/` -/
def ipv4Regex : Regex :=
  .seq .start (.seq (.seq (between 3 3 (.seq (between 1 3 digit) (lit '.'))) (between 1 3 digit)) .stop)

/-- `((\d{1,3}\.){3}(\d{1,3}){1})?([0-9a-f]){0,4}:{0,2}`, where case is ignored -/
def ipv6Section : Regex :=
  .seq (.upTo 1 (.seq (times 3 (.seq (between 1 3 digit) (lit '.'))) (times 1 (between 1 3 digit))))
    (.seq (between 0 4 (.char isHex)) (between 0 2 (lit ':')))

/-- `/^(::)?(section){1,8}(::)?$/i` -/
def ipv6Regex : Regex :=
  .seq .start (.seq (.seq (.upTo 1 colons) (.seq (between 1 8 ipv6Section) (.upTo 1 colons))) .stop)

def isV4Format (ip : List Char) : Bool := ipv4Regex.test ip

def isV6Format (ip : List Char) : Bool := ipv6Regex.test ip

/-! ## Writing -/

/-- `/(^|:)0(:0)*:0(:|$)/` -/
def zerosRegex : Regex :=
  .seq (.group 1 (.alt .start (lit ':'))) (.seq (lit '0')
    (.seq (.many (.group 2 (.seq (lit ':') (lit '0'))))
      (.seq (lit ':') (.seq (lit '0') (.group 3 (.alt (lit ':') .stop))))))

/-- `/:{3,4}/` -/
def colonsRegex : Regex := between 3 4 (lit ':')

/-- The 16-bit words. -/
def words : Bytes → List Nat
  | hi :: lo :: bytes => (256 * hi.toNat + lo.toNat) :: words bytes
  | _ => []

def ipToString (bytes : Bytes) : List Char :=
  if bytes.length = 4 then ['.'].intercalate (bytes.map (fun byte => Nat.toDigits 10 byte.toNat))
  else if bytes.length = 16 then
    let result := [':'].intercalate ((words bytes).map (Nat.toDigits 16))
    let result := zerosRegex.replace (fun group => group 1 ++ [':', ':'] ++ group 3) result
    colonsRegex.replace (fun _ => [':', ':']) result
  else []

/-! ## Reading -/

def digitValue (c : Char) : Option Nat :=
  if c.isDigit then some (c.toNat - '0'.toNat)
  else if 'a' ≤ c ∧ c ≤ 'f' then some (c.toNat - 'a'.toNat + 10)
  else if 'A' ≤ c ∧ c ≤ 'F' then some (c.toNat - 'A'.toNat + 10)
  else none

/-- The number that the text begins with, `none` for `NaN`. Blanks, signs and `0x` do not
occur in a text that has one of the formats. -/
def parseInt (s : List Char) (radix : Nat) : Option Nat :=
  match (s.takeWhile (fun c => (digitValue c).any (· < radix))).filterMap digitValue with
  | [] => none
  | digits => some (digits.foldl (fun n d => radix * n + d) 0)

/-- The bytes of an IPv4 text. -/
def v4Bytes (ip : List Char) : Bytes :=
  (ip.splitOn '.').map (fun byte => UInt8.ofNat ((parseInt byte 10).getD 0))

variable (bytesToUnprefixedHex : Bytes → String)

/-- Replaces IPv4 sections from index `i` on by two hexadecimal ones; the second one only
where it is one of the first eight. -/
def splitV4 : Nat → List (List Char) → List (List Char)
  | _, [] => []
  | i, s :: sections =>
    if isV4Format s then
      (bytesToUnprefixedHex ((v4Bytes s).take 2)).toList ::
        if i + 1 < 8 then
          (bytesToUnprefixedHex (((v4Bytes s).take 4).drop 2)).toList :: splitV4 (i + 2) sections
        else
          match sections with
          | [] => []
          | s' :: sections => s' :: splitV4 (i + 2) sections
    else s :: splitV4 (i + 1) sections

/-- Fills the empty sections with zeros. -/
def fillZeros (sections : List (List Char)) : List (List Char) :=
  if sections.head? = some [] then List.replicate (8 - sections.length) ['0'] ++ sections
  else if sections.getLast? = some [] then sections ++ List.replicate (8 - sections.length) ['0']
  else if sections.length < 8 then
    let i := sections.findIdx (fun s => s = [])
    sections.take i ++ List.replicate (9 - sections.length) ['0'] ++ sections.drop (i + 1)
  else sections

/-- The two bytes of a section; `NaN` counts as 0. -/
def sectionBytes (s : List Char) : Bytes :=
  let word := (parseInt s 16).getD 0
  [UInt8.ofNat (word / 256), UInt8.ofNat word]

/-- The bytes of an address, `none` where the format is invalid. -/
def ipToBytes (ip : List Char) : Option Bytes :=
  if isV4Format ip then some (v4Bytes ip)
  else if isV6Format ip then
    let sections := fillZeros (splitV4 bytesToUnprefixedHex 0 ((ip.splitOn ':').take 8))
    let bytes := sections.flatMap sectionBytes
    some (bytes.take 16 ++ List.replicate (16 - bytes.length) 0)
  else none

/-! ## Digits -/

/-- The texts of numbers in base 10 and 16. -/
theorem digitValue_digitChar {d : Nat} (h : d < 16) : digitValue d.digitChar = some d := by
  revert h
  revert d
  decide

theorem isHex_digitChar {d : Nat} (h : d < 16) : isHex d.digitChar = true := by
  revert h
  revert d
  decide

variable {b n : Nat} {c : Char}

theorem mem_toDigits (hb : 1 < b) (h : c ∈ Nat.toDigits b n) : ∃ d < b, c = d.digitChar := by
  induction n using Nat.base_induction b hb with
  | single m hm =>
    rw [Nat.toDigits_of_lt_base hm, List.mem_singleton] at h
    exact ⟨m, hm, h⟩
  | digit m k hk hm ih =>
    rw [← Nat.toDigits_append_toDigits hb hm hk, List.mem_append, Nat.toDigits_of_lt_base hk,
      List.mem_singleton] at h
    exact h.elim ih (fun h => ⟨k, hk, h⟩)

/-- Only 0 begins with a zero. -/
theorem head_toDigits (hb : 1 < b) (hb' : b ≤ 16) (h : (Nat.toDigits b n).head? = some '0') :
    n = 0 := by
  induction n using Nat.base_induction b hb with
  | single m hm =>
    rw [Nat.toDigits_of_lt_base hm, List.head?_cons, Option.some.injEq] at h
    have hval := digitValue_digitChar (hm.trans_le hb')
    rw [h] at hval
    exact (Option.some.inj hval).symm
  | digit m k hk hm ih =>
    rw [← Nat.toDigits_append_toDigits hb hm hk, List.head?_append_of_ne_nil _ Nat.toDigits_ne_nil]
      at h
    exact absurd (ih h) (Nat.ne_of_gt hm)

theorem parseInt_toDigits (hb : 1 < b) (hb' : b ≤ 16) : parseInt (Nat.toDigits b n) b = some n := by
  have hval {c : Char} (hc : c ∈ Nat.toDigits b n) : ∃ d < b, digitValue c = some d := by
    obtain ⟨d, hd, rfl⟩ := mem_toDigits hb hc
    exact ⟨d, hd, digitValue_digitChar (hd.trans_le hb')⟩
  have htake : (Nat.toDigits b n).takeWhile (fun c => (digitValue c).any (· < b)) =
      Nat.toDigits b n := by
    refine List.takeWhile_eq_self_iff.mpr (fun c hc => ?_)
    obtain ⟨d, hd, hdc⟩ := hval hc
    simp [hdc, hd]
  have hfold (n : Nat) :
      ((Nat.toDigits b n).filterMap digitValue).foldl (fun n d => b * n + d) 0 = n ∧
        (Nat.toDigits b n).filterMap digitValue ≠ [] := by
    induction n using Nat.base_induction b hb with
    | single m hm => simp [Nat.toDigits_of_lt_base hm, digitValue_digitChar (hm.trans_le hb')]
    | digit m k hk hm ih =>
      simp [← Nat.toDigits_append_toDigits hb hm hk, Nat.toDigits_of_lt_base hk,
        digitValue_digitChar (hk.trans_le hb'), ih]
  unfold parseInt
  rw [htake]
  split
  · rename_i hnil
    exact absurd hnil (hfold n).2
  · rw [(hfold n).1]

/-! ## Runs of zeros -/

/-- The hexadecimal texts of words, each behind a colon. -/
def tailText (ws : List Nat) : List Char := ws.flatMap (fun w => ':' :: Nat.toDigits 16 w)

def joinText (ws : List Nat) : List Char := [':'].intercalate (ws.map (Nat.toDigits 16))

theorem joinText_cons (w : Nat) (ws : List Nat) :
    joinText (w :: ws) = Nat.toDigits 16 w ++ tailText ws := by
  induction ws generalizing w with
  | nil => simp [joinText, tailText]
  | cons w' ws ih =>
    have hcons := ih w'
    unfold joinText at hcons ⊢
    rw [List.map_cons, List.map_cons, List.intercalate_cons_cons, ← List.map_cons, hcons]
    simp [tailText]

theorem tailText_append (ws ws' : List Nat) : tailText (ws ++ ws') = tailText ws ++ tailText ws' :=
  List.flatMap_append

theorem length_le_tailText (ws : List Nat) : ws.length ≤ (tailText ws).length := by
  induction ws with
  | nil => exact Nat.le_refl 0
  | cons w ws ih =>
    simp only [tailText, List.flatMap_cons, List.length_append, List.length_cons] at ih ⊢
    omega

variable {ws : List Nat}

/-- Behind a run of zeros is the end or another word. -/
theorem tailText_next (h : ws.head? ≠ some 0) :
    tailText ws = [] ∨ ∃ c t, tailText ws = ':' :: c :: t ∧ c ≠ '0' := by
  cases ws with
  | nil => exact .inl rfl
  | cons w ws =>
    obtain ⟨c, t, hct⟩ := List.exists_cons_of_ne_nil (Nat.toDigits_ne_nil (n := w) (b := 16))
    refine .inr ⟨c, t ++ tailText ws, by simp [tailText, hct], ?_⟩
    rintro rfl
    have hhead : (Nat.toDigits 16 w).head? = some '0' := by rw [hct, List.head?_cons]
    exact h (congrArg some (head_toDigits (by omega) (by omega) hhead))

/-- `(:0)` of the regular expression. -/
def colonZero : Regex := .group 2 (.seq (lit ':') (lit '0'))

/-- `:0(:|$)` -/
def lastZero : Regex := .seq (lit ':') (.seq (lit '0') (.group 3 (.alt (lit ':') .stop)))

variable {tail : List Char}

theorem ways_colonZero_next (h : tail = [] ∨ ∃ c t, tail = ':' :: c :: t ∧ c ≠ '0') (flag : Bool)
    (g : List (Nat × List Char)) :
    ways colonZero ⟨flag, tail, g⟩ = [] ∧ ways lastZero ⟨flag, tail, g⟩ = [] := by
  rcases h with rfl | ⟨c, t, rfl, hc⟩
  · exact ⟨rfl, rfl⟩
  · constructor <;> simp [colonZero, lastZero, ways, lit, hc]

theorem ways_colonZero (flag : Bool) (tail : List Char) (g : List (Nat × List Char)) :
    ways colonZero ⟨flag, ':' :: '0' :: tail, g⟩ = [⟨false, tail, (2, [':', '0']) :: g⟩] := by
  have htwo : tail.length + 1 + 1 - tail.length = 2 := by omega
  simp [colonZero, ways, lit, htwo]

/-- A run is matched as a whole, for `(:0)*` is greedy. -/
theorem iterate_colonZero (h : tail = [] ∨ ∃ c t, tail = ':' :: c :: t ∧ c ≠ '0') (n : Nat)
    {fuel : Nat} (hn : n ≤ fuel) (flag : Bool) (g : List (Nat × List Char)) :
    ∃ p, (iterate (ways colonZero) fuel ⟨flag, tailText (List.replicate (n + 1) 0) ++ tail, g⟩).findSome?
        (fun q => (ways lastZero q).head?) = some p ∧
      p.captured 1 = Place.captured ⟨flag, [], g⟩ 1 ∧ p.captured 3 ++ p.rest = tail := by
  induction n generalizing fuel flag g with
  | zero =>
    have hrest : tailText (List.replicate (0 + 1) 0) ++ tail = ':' :: '0' :: tail := by simp [tailText]
    have hlast : ∃ p, (ways lastZero ⟨flag, ':' :: '0' :: tail, g⟩).head? = some p ∧
        p.captured 1 = Place.captured ⟨flag, [], g⟩ 1 ∧ p.captured 3 ++ p.rest = tail := by
      rcases h with rfl | ⟨c, t, rfl, -⟩ <;> simp [lastZero, ways, lit, Place.captured]
    obtain ⟨p, hp, hcaptured⟩ := hlast
    refine ⟨p, ?_, hcaptured⟩
    rw [hrest]
    cases fuel with
    | zero => simp [iterate, hp]
    | succ fuel =>
      have hstop (g : List (Nat × List Char)) :
          iterate (ways colonZero) fuel ⟨false, tail, g⟩ = [⟨false, tail, g⟩] := by
        cases fuel with
        | zero => rfl
        | succ fuel => simp [iterate, (ways_colonZero_next h false g).1]
      have hlt : tail.length < (':' :: '0' :: tail).length := Nat.lt_succ_of_lt (Nat.lt_succ_self _)
      simp only [iterate, ways_colonZero, List.filter_cons, hlt, decide_true, if_true,
        List.filter_nil, List.flatMap_cons, List.flatMap_nil, List.append_nil, hstop,
        List.findSome?_append, List.findSome?_cons, List.findSome?_nil,
        (ways_colonZero_next h false _).2, List.head?_nil, Option.none_or, hp]
  | succ n ih =>
    obtain ⟨fuel, rfl⟩ := Nat.exists_eq_succ_of_ne_zero (Nat.ne_of_gt (Nat.zero_lt_of_lt hn))
    obtain ⟨p, hp, hcaptured, hrest⟩ := ih (Nat.le_of_succ_le_succ hn) false ((2, [':', '0']) :: g)
    refine ⟨p, ?_, hcaptured.trans (by simp [Place.captured]), hrest⟩
    have hfirst : ways colonZero ⟨flag, tailText (List.replicate (n + 1 + 1) 0) ++ tail, g⟩ =
        [⟨false, tailText (List.replicate (n + 1) 0) ++ tail, (2, [':', '0']) :: g⟩] := by
      have hcons : tailText (List.replicate (n + 1 + 1) 0) ++ tail =
          ':' :: '0' :: (tailText (List.replicate (n + 1) 0) ++ tail) := by
        simp [tailText, List.replicate_succ]
      rw [hcons, ways_colonZero]
    have hlt : (tailText (List.replicate (n + 1) 0) ++ tail).length <
        (tailText (List.replicate (n + 1 + 1) 0) ++ tail).length := by
      simp [tailText, List.replicate_succ]
    simp only [iterate, hfirst, List.filter_cons, hlt, decide_true, if_true, List.filter_nil,
      List.flatMap_cons, List.flatMap_nil, List.append_nil, List.findSome?_append, hp, Option.some_or]

/-- `0(:0)*:0(:|$)` -/
def zerosBody : Regex := .seq (lit '0') (.seq (.many colonZero) lastZero)

theorem head_zerosBody (h : tail = [] ∨ ∃ c t, tail = ':' :: c :: t ∧ c ≠ '0') (n : Nat)
    (flag : Bool) (g : List (Nat × List Char)) :
    ∃ p, (ways zerosBody ⟨flag, '0' :: (tailText (List.replicate (n + 1) 0) ++ tail), g⟩).head? =
        some p ∧ p.captured 1 = Place.captured ⟨flag, [], g⟩ 1 ∧ p.captured 3 ++ p.rest = tail := by
  have hfuel : n ≤ (tailText (List.replicate (n + 1) 0) ++ tail).length := by
    have hlen := length_le_tailText (List.replicate (n + 1) 0)
    rw [List.length_replicate] at hlen
    rw [List.length_append]
    omega
  obtain ⟨p, hp, hcaptured⟩ := iterate_colonZero h n hfuel false g
  refine ⟨p, ?_, hcaptured⟩
  simp only [zerosBody, ways, lit, decide_true, if_true, List.flatMap_cons, List.flatMap_nil,
    List.append_nil, List.head?_flatMap]
  exact hp

variable {w : Nat}

theorem zerosBody_fails (h : ¬ (w = 0 ∧ ws.head? = some 0)) (flag : Bool)
    (g : List (Nat × List Char)) :
    ways zerosBody ⟨flag, Nat.toDigits 16 w ++ tailText ws, g⟩ = [] := by
  by_cases hw : w = 0
  · obtain rfl := hw
    have hnext := tailText_next (fun hhead => h ⟨rfl, hhead⟩)
    have hstop (fuel : Nat) : iterate (ways colonZero) fuel ⟨false, tailText ws, g⟩ =
        [⟨false, tailText ws, g⟩] := by
      cases fuel with
      | zero => rfl
      | succ fuel => simp [iterate, (ways_colonZero_next hnext false g).1]
    simp only [zerosBody, Nat.toDigits_zero, ways, lit, decide_true, if_true, List.flatMap_cons,
      List.flatMap_nil, List.append_nil, List.cons_append, List.nil_append, hstop]
    exact (ways_colonZero_next hnext false g).2
  · obtain ⟨c, t, hct⟩ := List.exists_cons_of_ne_nil (Nat.toDigits_ne_nil (n := w) (b := 16))
    have hc : c ≠ '0' := by
      rintro rfl
      have hhead : (Nat.toDigits 16 w).head? = some '0' := by rw [hct, List.head?_cons]
      exact hw (head_toDigits (by omega) (by omega) hhead)
    simp [zerosBody, ways, lit, hct, hc]

/-- A colon is no digit. -/
theorem ne_colon_of_toDigits (h : c ∈ Nat.toDigits 16 w) : c ≠ ':' := by
  obtain ⟨d, hd, rfl⟩ := mem_toDigits (by omega) h
  have hhex := isHex_digitChar hd
  rintro heq
  rw [heq] at hhex
  revert hhex
  decide

theorem ways_zeros_colon (rest : List Char) :
    ways zerosRegex ⟨false, ':' :: rest, []⟩ = ways zerosBody ⟨false, rest, [(1, [':'])]⟩ := by
  have hone : rest.length + 1 - rest.length = 1 := by omega
  simp [zerosRegex, zerosBody, colonZero, lastZero, ways, lit, hone]

theorem ways_zeros_start {rest : List Char} :
    ways zerosRegex ⟨true, Nat.toDigits 16 w ++ rest, []⟩ =
      ways zerosBody ⟨true, Nat.toDigits 16 w ++ rest, [(1, [])]⟩ := by
  obtain ⟨c, t, hct⟩ := List.exists_cons_of_ne_nil (Nat.toDigits_ne_nil (n := w) (b := 16))
  have hc := ne_colon_of_toDigits (hct ▸ List.mem_cons_self : c ∈ Nat.toDigits 16 w)
  simp [zerosRegex, zerosBody, colonZero, lastZero, ways, lit, hct, hc]

theorem zeros_skip : ∀ c ∈ Nat.toDigits 16 w, ∀ rest,
    ways zerosRegex ⟨false, c :: rest, []⟩ = [] := by
  intro c hc rest
  simp [zerosRegex, ways, lit, ne_colon_of_toDigits hc]

/-- Words that begin with two zeros, up to the end of the run. -/
theorem exists_run (h : ws.head? = some 0) :
    ∃ n post, 0 :: ws = List.replicate (n + 2) 0 ++ post ∧ post.head? ≠ some 0 := by
  induction ws with
  | nil => cases h
  | cons w ws ih =>
    obtain rfl : w = 0 := Option.some.inj h
    by_cases hnext : ws.head? = some 0
    · obtain ⟨n, post, hrun, hpost⟩ := ih hnext
      exact ⟨n + 1, post, by rw [hrun]; rfl, hpost⟩
    · exact ⟨0, ws, rfl, hnext⟩

/-- Behind the first word the search finds the first run of two zeros or more. -/
theorem firstMatch_tailText (ws : List Nat) : firstMatch zerosRegex false (tailText ws) = none ∨
      ∃ before n post p, ws = before ++ List.replicate (n + 2) 0 ++ post ∧
        firstMatch zerosRegex false (tailText ws) = some (tailText before, p) ∧
        p.captured 1 = [':'] ∧ p.captured 3 ++ p.rest = tailText post := by
  induction ws with
  | nil => exact .inl rfl
  | cons w ws ih =>
    have hcons : tailText (w :: ws) = ':' :: (Nat.toDigits 16 w ++ tailText ws) := by simp [tailText]
    by_cases hzero : w = 0 ∧ ws.head? = some 0
    · obtain ⟨rfl, hnext⟩ := hzero
      obtain ⟨n, post, hrun, hpost⟩ := exists_run hnext
      have hws : ws = List.replicate (n + 1) 0 ++ post := (List.cons.inj hrun).2
      obtain ⟨p, hp, hone, hthree⟩ := head_zerosBody (tailText_next hpost) n false [(1, [':'])]
      refine .inr ⟨[], n, post, p, by simpa using hrun, ?_, hone, hthree⟩
      refine firstMatch_here ?_
      rw [hcons, ways_zeros_colon, hws, tailText_append]
      exact hp
    · have hskip : firstMatch zerosRegex false (tailText (w :: ws)) =
          (firstMatch zerosRegex false (tailText ws)).map
            (fun m => (':' :: (Nat.toDigits 16 w ++ m.1), m.2)) := by
        rw [hcons, firstMatch_skip, firstMatch_skip_word zeros_skip, Option.map_map]
        · rfl
        · rw [ways_zeros_colon, zerosBody_fails hzero]
      rw [hskip]
      rcases ih with hnone | ⟨before, n, post, p, hws, hfound, hone, hthree⟩
      · exact .inl (by rw [hnone, Option.map_none])
      · refine .inr ⟨w :: before, n, post, p, by rw [hws]; rfl, ?_, hone, hthree⟩
        rw [hfound, Option.map_some]
        simp [tailText]

theorem firstMatch_joinText (w : Nat) (ws : List Nat) :
    firstMatch zerosRegex true (joinText (w :: ws)) = none ∨
      ∃ before n post p, w :: ws = before ++ List.replicate (n + 2) 0 ++ post ∧
        firstMatch zerosRegex true (joinText (w :: ws)) = some (joinText before, p) ∧
        p.captured 1 = (if before = [] then [] else [':']) ∧
        p.captured 3 ++ p.rest = tailText post := by
  rw [joinText_cons]
  by_cases hzero : w = 0 ∧ ws.head? = some 0
  · obtain ⟨rfl, hnext⟩ := hzero
    obtain ⟨n, post, hrun, hpost⟩ := exists_run hnext
    have hws : ws = List.replicate (n + 1) 0 ++ post := (List.cons.inj hrun).2
    obtain ⟨p, hp, hone, hthree⟩ := head_zerosBody (tailText_next hpost) n true [(1, [])]
    refine .inr ⟨[], n, post, p, by simpa using hrun, firstMatch_here ?_, hone, hthree⟩
    rw [ways_zeros_start, hws, tailText_append]
    exact hp
  · have hskip : firstMatch zerosRegex true (Nat.toDigits 16 w ++ tailText ws) =
        (firstMatch zerosRegex false (tailText ws)).map (fun m => (Nat.toDigits 16 w ++ m.1, m.2)) := by
      have hfail := zerosBody_fails hzero true [(1, [])]
      rw [← ways_zeros_start] at hfail
      obtain ⟨c, t, hct⟩ := List.exists_cons_of_ne_nil (Nat.toDigits_ne_nil (n := w) (b := 16))
      have hword := zeros_skip (w := w)
      rw [hct] at hfail hword ⊢
      rw [List.cons_append] at hfail ⊢
      rw [firstMatch_skip hfail,
        firstMatch_skip_word (fun c hc => hword c (List.mem_cons_of_mem _ hc)), Option.map_map]
      rfl
    rw [hskip]
    rcases firstMatch_tailText ws with hnone | ⟨before, n, post, p, hws, hfound, hone, hthree⟩
    · exact .inl (by rw [hnone, Option.map_none])
    · refine .inr ⟨w :: before, n, post, p, by rw [hws]; rfl, ?_, hone, hthree⟩
      rw [hfound, Option.map_some, joinText_cons]

/-! ## Runs of colons -/

theorem head_colons (h : tail.head? ≠ some ':') {k : Nat} (hk : k = 3 ∨ k = 4) (flag : Bool) :
    (ways colonsRegex ⟨flag, List.replicate k ':' ++ tail, []⟩).head? = some ⟨false, tail, []⟩ := by
  cases tail with
  | nil => rcases hk with rfl | rfl <;> simp [colonsRegex, between, times, ways, iterate, lit]
  | cons c tail =>
    have hc : c ≠ ':' := fun hc => h (congrArg some hc)
    rcases hk with rfl | rfl <;>
      simp [colonsRegex, between, times, ways, iterate, lit, hc, List.replicate_succ]

theorem colons_skip (hc : c ≠ ':') (flag : Bool) (rest : List Char) :
    ways colonsRegex ⟨flag, c :: rest, []⟩ = [] ∧ ways colonsRegex ⟨flag, ':' :: c :: rest, []⟩ = [] := by
  constructor <;> simp [colonsRegex, between, times, ways, lit, hc]

theorem firstMatch_colons_word (w : Nat) (flag : Bool) (rest : List Char) :
    firstMatch colonsRegex flag (Nat.toDigits 16 w ++ rest) =
      (firstMatch colonsRegex false rest).map (fun m => (Nat.toDigits 16 w ++ m.1, m.2)) := by
  obtain ⟨c, t, hct⟩ := List.exists_cons_of_ne_nil (Nat.toDigits_ne_nil (n := w) (b := 16))
  have hne (c : Char) (hc : c ∈ Nat.toDigits 16 w) := ne_colon_of_toDigits hc
  rw [hct] at hne ⊢
  rw [List.cons_append, firstMatch_skip (colons_skip (hne c List.mem_cons_self) flag _).1,
    firstMatch_skip_word (fun c hc rest => (colons_skip (hne c (List.mem_cons_of_mem _ hc)) _ rest).1),
    Option.map_map]
  rfl

theorem firstMatch_colons_tailText (ws : List Nat) (rest : List Char) :
    firstMatch colonsRegex false (tailText ws ++ rest) =
      (firstMatch colonsRegex false rest).map (fun m => (tailText ws ++ m.1, m.2)) := by
  induction ws with
  | nil => simp [tailText]
  | cons w ws ih =>
    have hcons : tailText (w :: ws) ++ rest =
        ':' :: (Nat.toDigits 16 w ++ (tailText ws ++ rest)) := by simp [tailText]
    have hfail : ways colonsRegex ⟨false, ':' :: (Nat.toDigits 16 w ++ (tailText ws ++ rest)), []⟩ = [] := by
      obtain ⟨c, t, hct⟩ := List.exists_cons_of_ne_nil (Nat.toDigits_ne_nil (n := w) (b := 16))
      rw [hct]
      exact (colons_skip (ne_colon_of_toDigits (hct ▸ List.mem_cons_self)) false _).2
    rw [hcons, firstMatch_skip hfail, firstMatch_colons_word, ih, Option.map_map, Option.map_map]
    simp [Function.comp_def, tailText]

theorem firstMatch_colons_joinText (w : Nat) (ws : List Nat) (flag : Bool) (rest : List Char) :
    firstMatch colonsRegex flag (joinText (w :: ws) ++ rest) =
      (firstMatch colonsRegex false rest).map (fun m => (joinText (w :: ws) ++ m.1, m.2)) := by
  rw [joinText_cons, List.append_assoc, firstMatch_colons_word, firstMatch_colons_tailText,
    Option.map_map]
  simp [Function.comp_def]

/-! ## Sections -/

/-- The sections on one side of a run of zeros. -/
def side (ws : List Nat) : List (List Char) := if ws = [] then [[]] else ws.map (Nat.toDigits 16)

/-- The sections of the text of the words `ws`. -/
inductive Sections (ws : List Nat) : List (List Char) → Prop where
  | plain : Sections ws (ws.map (Nat.toDigits 16))
  | run {before n post} (h : ws = before ++ List.replicate (n + 2) 0 ++ post) :
      Sections ws (side before ++ [[]] ++ side post)

theorem intercalate_append {sep : Char} {a b : List (List Char)} (ha : a ≠ []) (hb : b ≠ []) :
    [sep].intercalate (a ++ b) = [sep].intercalate a ++ sep :: [sep].intercalate b := by
  induction a with
  | nil => exact absurd rfl ha
  | cons x a ih =>
    cases a with
    | nil => rw [List.singleton_append, List.intercalate_cons_of_ne_nil hb]; simp
    | cons y a =>
      rw [List.cons_append, List.cons_append, List.intercalate_cons_cons, ← List.cons_append,
        ih (List.cons_ne_nil y a), List.intercalate_cons_cons]
      simp

theorem side_ne_nil (ws : List Nat) : side ws ≠ [] := by
  unfold side
  split
  · exact List.cons_ne_nil _ _
  · rename_i hne
    exact fun h => hne (List.map_eq_nil_iff.mp h)

theorem intercalate_side (ws : List Nat) : [':'].intercalate (side ws) = joinText ws := by
  unfold side
  split
  · rename_i hnil
    rw [hnil]
    rfl
  · rfl

theorem intercalate_sides (before post : List Nat) :
    [':'].intercalate (side before ++ [[]] ++ side post) = joinText before ++ ':' :: ':' :: joinText post := by
  have hmiddle : side before ++ [[]] ≠ [] := List.append_ne_nil_of_right_ne_nil _ (List.cons_ne_nil _ _)
  rw [intercalate_append hmiddle (side_ne_nil post),
    intercalate_append (side_ne_nil before) (List.cons_ne_nil _ _), intercalate_side, intercalate_side]
  simp

theorem head_joinText (w : Nat) (ws : List Nat) : (joinText (w :: ws)).head? ≠ some ':' := by
  obtain ⟨c, t, hct⟩ := List.exists_cons_of_ne_nil (Nat.toDigits_ne_nil (n := w) (b := 16))
  rw [joinText_cons, hct, List.cons_append, List.head?_cons]
  exact fun h => ne_colon_of_toDigits (hct ▸ List.mem_cons_self) (Option.some.inj h)

theorem tailText_cons (w : Nat) (ws : List Nat) : tailText (w :: ws) = ':' :: joinText (w :: ws) := by
  rw [joinText_cons]
  simp [tailText]

/-- The first run of two zeros or more is written as two colons. -/
theorem sections_of_words (w : Nat) (ws : List Nat) : ∃ sections, Sections (w :: ws) sections ∧
    colonsRegex.replace (fun _ => [':', ':'])
      (zerosRegex.replace (fun group => group 1 ++ [':', ':'] ++ group 3) (joinText (w :: ws))) =
      [':'].intercalate sections := by
  rcases firstMatch_joinText w ws with hnone | ⟨before, n, post, p, hws, hfound, hone, hthree⟩
  · refine ⟨_, .plain, ?_⟩
    have hcolons := firstMatch_colons_joinText w ws true []
    rw [List.append_nil] at hcolons
    unfold replace
    rw [hnone]
    dsimp only
    rw [hcolons]
    rfl
  · refine ⟨_, .run hws, ?_⟩
    have hfirst : zerosRegex.replace (fun group => group 1 ++ [':', ':'] ++ group 3) (joinText (w :: ws)) =
        joinText before ++ ((if before = [] then [] else [':']) ++ ':' :: ':' :: tailText post) := by
      unfold replace
      rw [hfound]
      dsimp only
      rw [hone, ← hthree]
      simp
    rw [hfirst, intercalate_sides]
    unfold replace
    cases before with
    | nil =>
      cases post with
      | nil => decide
      | cons w' post =>
        have hmatch := head_colons (head_joinText w' post) (.inl rfl) true
        have hrest : ':' :: ':' :: tailText (w' :: post) =
            List.replicate 3 ':' ++ joinText (w' :: post) := by rw [tailText_cons]; rfl
        simp only [if_true, List.nil_append, hrest, firstMatch_here hmatch, show joinText [] = [] from rfl]
        rfl
    | cons w₀ before =>
      rw [if_neg (List.cons_ne_nil _ _), firstMatch_colons_joinText]
      cases post with
      | nil =>
        have hmatch : (ways colonsRegex ⟨false, List.replicate 3 ':' ++ [], []⟩).head? =
            some ⟨false, [], []⟩ := head_colons (by simp) (.inl rfl) false
        have hrest : [':'] ++ ':' :: ':' :: tailText [] = List.replicate 3 ':' ++ [] := rfl
        rw [hrest, firstMatch_here hmatch]
        simp [joinText]
      | cons w' post =>
        have hmatch := head_colons (head_joinText w' post) (.inr rfl) false
        have hrest : [':'] ++ ':' :: ':' :: tailText (w' :: post) =
            List.replicate 4 ':' ++ joinText (w' :: post) := by rw [tailText_cons]; rfl
        rw [hrest, firstMatch_here hmatch]
        simp

end IpText
