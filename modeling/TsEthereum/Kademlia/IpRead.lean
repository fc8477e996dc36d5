-- SUMMARY: The written texts of IP addresses have the formats that are asked for, and are read back as the bytes that they were written from.
import TsEthereum.Kademlia.IpText

/-!
# Reading IP addresses

Two colons stand for the first run of zeros. The reader takes the sections apart at the
colons and fills the empty ones, at the beginning, at the end or in the middle.
-/

open List Nat Function

namespace IpText

open Regex

/-! ## Formats of the written texts -/

variable {k : Nat}

/-- A section of the format: some hexadecimal digits, then up to two colons. -/
theorem mem_ipv6Section {s : List Char} (hs : ∀ c ∈ s, isHex c = true) (hlen : s.length ≤ 4)
    (hk : k ≤ 2) (flag : Bool) (rest : List Char) :
    ∃ flag', ⟨flag', rest, []⟩ ∈ ways ipv6Section ⟨flag, s ++ (List.replicate k ':' ++ rest), []⟩ := by
  have hcolon : ∀ c ∈ List.replicate k ':', decide (c = ':') = true := by
    intro c hc
    exact decide_eq_true (eq_of_mem_replicate hc)
  have hhex : ⟨flag && s.isEmpty, List.replicate k ':' ++ rest, []⟩ ∈
      ways (between 0 4 (.char isHex)) ⟨flag, s ++ (List.replicate k ':' ++ rest), []⟩ :=
    mem_ways_seq (mem_singleton_self _) (mem_ways_upTo hs hlen flag)
  have hcolons : ⟨(flag && s.isEmpty) && (List.replicate k ':').isEmpty, rest, []⟩ ∈
      ways (between 0 2 (lit ':')) ⟨flag && s.isEmpty, List.replicate k ':' ++ rest, []⟩ :=
    mem_ways_seq (mem_singleton_self _)
      (mem_ways_upTo hcolon (by rwa [length_replicate]) _)
  exact ⟨_, mem_ways_seq (mem_iterate_self _ 1 _) (mem_ways_seq hhex hcolons)⟩

/-- Sections with the numbers of colons behind them. -/
def colonText (items : List (List Char × Nat)) : List Char :=
  items.flatMap (fun item => item.1 ++ List.replicate item.2 ':')

/-- A section as it occurs in a written text. -/
def ItemOk (item : List Char × Nat) : Prop :=
  item.1 ≠ [] ∧ (∀ c ∈ item.1, isHex c = true) ∧ item.1.length ≤ 4 ∧ item.2 ≤ 2

variable {items : List (List Char × Nat)}

section

variable (hitems : ∀ item ∈ items, ItemOk item)
include hitems

theorem mem_iterate_ipv6Section (flag : Bool) : ∃ flag', ⟨flag', [], []⟩ ∈
      iterate (ways ipv6Section) items.length ⟨flag, colonText items, []⟩ := by
  induction items generalizing flag with
  | nil => exact ⟨flag, mem_iterate_self _ 0 _⟩
  | cons item items ih =>
    rw [forall_mem_cons] at hitems
    obtain ⟨⟨hne, hhex, hlen, hk⟩, hitems⟩ := hitems
    obtain ⟨flag₁, hsection⟩ := mem_ipv6Section hhex hlen hk flag (colonText items)
    obtain ⟨flag', hrest⟩ := ih hitems flag₁
    refine ⟨flag', ?_⟩
    have hcons : colonText (item :: items) = item.1 ++ (List.replicate item.2 ':' ++ colonText items) := by
      simp [colonText]
    rw [hcons]
    refine mem_iterate_succ hsection ?_ hrest
    have hpos : 0 < item.1.length := List.length_pos_iff.mpr hne
    simp only [length_append]
    omega

theorem mem_between_ipv6Section (hlen : items.length ≤ 8) (flag : Bool) : ∃ flag', ⟨flag', [], []⟩ ∈
      ways (between 1 8 ipv6Section) ⟨flag, colonText items, []⟩ := by
  cases items with
  | nil =>
    obtain ⟨flag', hempty⟩ := mem_ipv6Section (s := []) (fun c hc => absurd hc not_mem_nil)
      (Nat.zero_le 4) (Nat.zero_le 2) flag []
    exact ⟨flag', mem_ways_seq (mem_ways_seq hempty (mem_singleton_self _)) (mem_iterate_self _ 7 _)⟩
  | cons item items =>
    rw [forall_mem_cons] at hitems
    obtain ⟨⟨-, hhex, hlen', hk⟩, hitems⟩ := hitems
    obtain ⟨flag₁, hsection⟩ := mem_ipv6Section hhex hlen' hk flag (colonText items)
    obtain ⟨flag', hrest⟩ := mem_iterate_ipv6Section hitems flag₁
    have hcons : colonText (item :: items) = item.1 ++ (List.replicate item.2 ':' ++ colonText items) := by
      simp [colonText]
    rw [hcons]
    exact ⟨flag', mem_ways_seq (mem_ways_seq hsection (mem_singleton_self _))
      (mem_iterate_mono (le_of_succ_le_succ hlen) hrest)⟩

/-- Up to eight sections have the format, with two colons in front of them or without. -/
theorem isV6Format_of_items (hlen : items.length ≤ 8) :
    isV6Format (colonText items) = true ∧ isV6Format (':' :: ':' :: colonText items) = true := by
  have hend (flag : Bool) : ⟨flag, [], []⟩ ∈ ways .stop ⟨flag, [], []⟩ := mem_singleton_self _
  constructor
  · obtain ⟨flag', hmem⟩ := mem_between_ipv6Section hitems hlen true
    exact test_of_mem (mem_ways_seq (mem_singleton_self _) (mem_ways_seq
      (mem_ways_seq (mem_iterate_self _ 1 _) (mem_ways_seq hmem (mem_iterate_self _ 1 _))) (hend flag')))
  · obtain ⟨flag', hmem⟩ := mem_between_ipv6Section hitems hlen false
    have hcolons : ⟨false, colonText items, []⟩ ∈
        ways (.upTo 1 colons) ⟨true, ':' :: ':' :: colonText items, []⟩ := by
      refine mem_iterate_succ (q := ⟨false, colonText items, []⟩) ?_
        (lt_succ_of_lt (lt_succ_self _)) (mem_iterate_self _ 0 _)
      simp [colons, ways, lit]
    exact test_of_mem (mem_ways_seq (mem_singleton_self _) (mem_ways_seq
      (mem_ways_seq hcolons (mem_ways_seq hmem (mem_iterate_self _ 1 _))) (hend flag')))

end

/-- Words with one colon between them and `k` behind the last one. -/
def itemsOf (k : Nat) : List Nat → List (List Char × Nat)
  | [] => []
  | [w] => [(Nat.toDigits 16 w, k)]
  | w :: ws => (Nat.toDigits 16 w, 1) :: itemsOf k ws

theorem length_itemsOf (k : Nat) (ws : List Nat) : (itemsOf k ws).length = ws.length := by
  fun_induction itemsOf k ws with
  | case1 => rfl
  | case2 => rfl
  | case3 w ws hne ih => rw [length_cons, length_cons, ih]

variable {ws : List Nat}

theorem colonText_itemsOf (h : ws ≠ []) :
    colonText (itemsOf k ws) = joinText ws ++ List.replicate k ':' := by
  fun_induction itemsOf k ws with
  | case1 => exact absurd rfl h
  | case2 w => simp [colonText, joinText]
  | case3 w ws hne ih =>
    have hws : ws ≠ [] := hne
    obtain ⟨w', ws', rfl⟩ := exists_cons_of_ne_nil hws
    have hrest := ih hws
    unfold colonText at hrest ⊢
    rw [flatMap_cons, hrest, joinText_cons w, tailText_cons]
    simp

theorem itemsOf_ok (hk : k ≤ 2) (hws : ∀ w ∈ ws, w < 65536) :
    ∀ item ∈ itemsOf k ws, ItemOk item := by
  have hok (w : Nat) (hw : w < 65536) (k : Nat) (hk : k ≤ 2) : ItemOk (Nat.toDigits 16 w, k) := by
    refine ⟨toDigits_ne_nil, fun c hc => ?_, (length_toDigits_le_iff (by omega) (by omega)).mpr hw, hk⟩
    obtain ⟨d, hd, rfl⟩ := mem_toDigits (by omega) hc
    exact isHex_digitChar hd
  fun_induction itemsOf k ws with
  | case1 => exact fun item h => absurd h not_mem_nil
  | case2 w =>
    intro item h
    rw [mem_singleton.mp h]
    exact hok w (hws w mem_cons_self) k hk
  | case3 w ws hne ih =>
    rw [forall_mem_cons] at hws ⊢
    exact ⟨hok w hws.1 1 (by omega), ih hws.2⟩

variable {sections : List (List Char)}

/-- The written texts have the format of IPv6. -/
theorem isV6Format_of_sections (hlen : ws.length = 8) (hws : ∀ w ∈ ws, w < 65536)
    (h : Sections ws sections) : isV6Format ([':'].intercalate sections) = true := by
  cases h with
  | plain =>
    have hne : ws ≠ [] := ne_nil_of_length_pos (by omega)
    have htext := colonText_itemsOf (k := 0) hne
    have hok := isV6Format_of_items (itemsOf_ok (Nat.zero_le 2) hws) (by rw [length_itemsOf, hlen])
    rw [htext, replicate_zero, append_nil] at hok
    exact hok.1
  | @run before n post hrun =>
    rw [intercalate_sides]
    have hbefore : ∀ w ∈ before, w < 65536 := fun w hw => hws w (by simp [hrun, hw])
    have hpost : ∀ w ∈ post, w < 65536 := fun w hw => hws w (by simp [hrun, hw])
    have hsum : before.length + (n + 2) + post.length = 8 := by
      rw [← hlen, hrun]
      simp [Nat.add_assoc]
    have htext : colonText (itemsOf 0 post) = joinText post := by
      by_cases hnil : post = []
      · rw [hnil]
        rfl
      · rw [colonText_itemsOf hnil, replicate_zero, append_nil]
    by_cases hnil : before = []
    · have hok := isV6Format_of_items (itemsOf_ok (Nat.zero_le 2) hpost) (by rw [length_itemsOf]; omega)
      rw [htext] at hok
      rw [hnil]
      exact hok.2
    · have hok : ∀ item ∈ itemsOf 2 before ++ itemsOf 0 post, ItemOk item := by
        intro item hitem
        exact (mem_append.mp hitem).elim (itemsOf_ok (Nat.le_refl 2) hbefore item)
          (itemsOf_ok (Nat.zero_le 2) hpost item)
      have hformat := (isV6Format_of_items hok
        (by rw [length_append, length_itemsOf, length_itemsOf]; omega)).1
      have hboth : colonText (itemsOf 2 before ++ itemsOf 0 post) =
          joinText before ++ ':' :: ':' :: joinText post := by
        have happend : colonText (itemsOf 2 before ++ itemsOf 0 post) =
            colonText (itemsOf 2 before) ++ colonText (itemsOf 0 post) := flatMap_append
        rw [happend, htext, colonText_itemsOf hnil]
        simp [replicate_succ]
      rw [hboth] at hformat
      exact hformat

/-! ## Reading written texts -/

/-- The bytes of words. -/
def wordBytes (ws : List Nat) : Bytes := ws.flatMap (fun w => [UInt8.ofNat (w / 256), UInt8.ofNat w])

theorem wordBytes_words {bytes : Bytes} (h : bytes.length % 2 = 0) : wordBytes (words bytes) = bytes := by
  fun_induction words bytes with
  | case1 hi lo bytes ih =>
    rw [length_cons, length_cons] at h
    have hrest := ih (by omega)
    have hdiv : (256 * hi.toNat + lo.toNat) / 256 = hi.toNat := by
      have hlo := lo.toNat_lt
      omega
    have hmod : UInt8.ofNat (256 * hi.toNat + lo.toNat) = lo := by
      refine UInt8.toNat_inj.mp ?_
      rw [UInt8.toNat_ofNat', Nat.add_comm, add_mul_mod_self_left]
      exact mod_eq_of_lt lo.toNat_lt
    unfold wordBytes at hrest ⊢
    rw [flatMap_cons, hrest, hdiv, hmod, UInt8.ofNat_toNat]
    rfl
  | case2 bytes hne =>
    match bytes with
    | [] => rfl
    | [_] => simp at h
    | hi :: lo :: rest => exact absurd rfl (hne hi lo rest)

theorem sectionBytes_toDigits (w : Nat) :
    sectionBytes (Nat.toDigits 16 w) = [UInt8.ofNat (w / 256), UInt8.ofNat w] := by
  unfold sectionBytes
  rw [parseInt_toDigits (by omega) (by omega)]
  rfl

theorem flatMap_sectionBytes (ws : List Nat) :
    (ws.map (Nat.toDigits 16)).flatMap sectionBytes = wordBytes ws := by
  rw [flatMap_map]
  exact congrArg (fun f => ws.flatMap f) (funext sectionBytes_toDigits)

theorem sectionBytes_zeros (n : Nat) :
    (List.replicate n ['0']).flatMap sectionBytes = wordBytes (List.replicate n 0) := by
  have hmap : List.replicate n ['0'] = (List.replicate n 0).map (Nat.toDigits 16) := by simp
  rw [hmap, flatMap_sectionBytes]

theorem wordBytes_append (ws ws' : List Nat) : wordBytes (ws ++ ws') = wordBytes ws ++ wordBytes ws' :=
  flatMap_append

theorem map_toDigits_ne (ws : List Nat) : ∀ s ∈ ws.map (Nat.toDigits 16), s ≠ [] := by
  intro s hs
  obtain ⟨w, -, rfl⟩ := mem_map.mp hs
  exact toDigits_ne_nil

theorem head?_map_toDigits (rest : List (List Char)) (h : ws ≠ []) :
    (ws.map (Nat.toDigits 16) ++ rest).head? ≠ some [] := by
  obtain ⟨w, ws, rfl⟩ := exists_cons_of_ne_nil h
  simp

theorem getLast?_map_toDigits (rest : List (List Char)) (h : ws ≠ []) :
    (rest ++ ws.map (Nat.toDigits 16)).getLast? ≠ some [] := by
  have hne : ws.map (Nat.toDigits 16) ≠ [] := fun hnil => h (List.map_eq_nil_iff.mp hnil)
  rw [getLast?_append_of_ne_nil _ hne]
  intro hlast
  exact map_toDigits_ne ws [] (mem_of_getLast? hlast) rfl

theorem sectionBytes_nil : sectionBytes [] = [0, 0] := by decide

theorem wordBytes_zeros_succ (n : Nat) :
    [0, 0] ++ wordBytes (List.replicate n 0) = wordBytes (List.replicate (n + 1) 0) := by
  rw [replicate_succ]
  rfl

theorem wordBytes_zeros_append (n : Nat) (rest : Bytes) :
    wordBytes (List.replicate n 0) ++ ([0, 0] ++ ([0, 0] ++ rest)) =
      wordBytes (List.replicate (n + 2) 0) ++ rest := by
  have hsplit : List.replicate (n + 2) 0 = List.replicate n 0 ++ [0, 0] := replicate_add n 2 0
  rw [hsplit, wordBytes_append, append_assoc]
  rfl

/-- Every form of the sections is filled up to the words. -/
theorem fillZeros_sections (hlen : ws.length = 8) (h : Sections ws sections) :
    (fillZeros sections).flatMap sectionBytes = wordBytes ws := by
  cases h with
  | plain =>
    have hne : ws ≠ [] := ne_nil_of_length_pos (by omega)
    have hhead := head?_map_toDigits [] hne
    have hlast := getLast?_map_toDigits [] hne
    rw [append_nil] at hhead
    rw [nil_append] at hlast
    unfold fillZeros
    rw [if_neg hhead, if_neg hlast, if_neg (by rw [length_map]; omega), flatMap_sectionBytes]
  | @run before n post hrun =>
    have hsum : before.length + (n + 2) + post.length = 8 := by
      rw [← hlen, hrun]
      simp [Nat.add_assoc]
    rw [hrun, wordBytes_append, wordBytes_append]
    by_cases hbefore : before = []
    · subst hbefore
      have hside : side [] ++ [[]] ++ side post = [] :: [] :: side post := rfl
      unfold fillZeros
      rw [hside, head?_cons, if_pos rfl]
      rw [length_nil] at hsum
      by_cases hpost : post = []
      · subst hpost
        obtain rfl : n = 6 := by simpa using hsum
        decide
      · have hpostside : side post = post.map (Nat.toDigits 16) := if_neg hpost
        have hfill : 8 - ([] :: [] :: post.map (Nat.toDigits 16)).length = n := by
          simp only [length_cons, length_map]
          omega
        rw [hpostside, hfill, flatMap_append, sectionBytes_zeros, flatMap_cons,
          flatMap_cons, sectionBytes_nil, flatMap_sectionBytes, wordBytes_zeros_append]
        rfl
    · have hbeforeside : side before = before.map (Nat.toDigits 16) := if_neg hbefore
      have hhead := head?_map_toDigits ([[]] ++ side post) hbefore
      unfold fillZeros
      rw [hbeforeside, append_assoc, if_neg hhead]
      by_cases hpost : post = []
      · subst hpost
        have hlast : (before.map (Nat.toDigits 16) ++ ([[]] ++ side [])).getLast? = some [] := by
          simp [side]
        have hfill : 8 - (before.map (Nat.toDigits 16) ++ ([[]] ++ side [])).length = n := by
          simp only [length_append, length_map, side, if_true, length_cons,
            length_nil] at hsum ⊢
          omega
        have hmiddle : ([[]] ++ side []).flatMap sectionBytes = [0, 0] ++ [0, 0] := by decide
        rw [if_pos hlast, hfill, flatMap_append, flatMap_append, flatMap_sectionBytes,
          hmiddle, sectionBytes_zeros, append_assoc, append_assoc, wordBytes_zeros_succ,
          wordBytes_zeros_succ]
        simp [wordBytes]
      · have hpostside : side post = post.map (Nat.toDigits 16) := if_neg hpost
        have hlast := getLast?_map_toDigits (before.map (Nat.toDigits 16) ++ [[]]) hpost
        have hindex : (before.map (Nat.toDigits 16) ++ ([[]] ++ post.map (Nat.toDigits 16))).findIdx
            (fun s => s = []) = before.length := by
          have hnone : ¬ (before.map (Nat.toDigits 16)).findIdx (fun s => s = []) <
              (before.map (Nat.toDigits 16)).length := by
            rw [findIdx_lt_length]
            rintro ⟨s, hs, hnil⟩
            exact map_toDigits_ne before s hs (of_decide_eq_true hnil)
          rw [findIdx_append, if_neg hnone, length_map]
          simp [findIdx_cons]
        rw [hpostside]
        rw [append_assoc] at hlast
        have hshort : (before.map (Nat.toDigits 16) ++ ([[]] ++ post.map (Nat.toDigits 16))).length < 8 := by
          simp only [length_append, length_map, length_cons, length_nil]
          omega
        have hfill : 9 - (before.map (Nat.toDigits 16) ++ ([[]] ++ post.map (Nat.toDigits 16))).length =
            n + 2 := by
          simp only [length_append, length_map, length_cons, length_nil]
          omega
        rw [if_neg hlast, if_pos hshort]
        dsimp only
        rw [hindex, hfill]
        have htake : (before.map (Nat.toDigits 16) ++ ([[]] ++ post.map (Nat.toDigits 16))).take
            before.length = before.map (Nat.toDigits 16) := take_left' (length_map _)
        have hdrop : (before.map (Nat.toDigits 16) ++ ([[]] ++ post.map (Nat.toDigits 16))).drop
            (before.length + 1) = post.map (Nat.toDigits 16) := by
          rw [← append_assoc]
          exact drop_left' (by simp)
        rw [htake, hdrop, flatMap_append, flatMap_append, flatMap_sectionBytes,
          flatMap_sectionBytes, sectionBytes_zeros]

theorem mem_intercalate {sep c : Char} {l : List (List Char)} (h : c ∈ [sep].intercalate l) :
    c = sep ∨ ∃ s ∈ l, c ∈ s := by
  induction l with
  | nil => exact absurd h not_mem_nil
  | cons s l ih =>
    cases l with
    | nil =>
      rw [intercalate_singleton] at h
      exact .inr ⟨s, mem_singleton_self s, h⟩
    | cons s' l =>
      rw [intercalate_cons_cons, append_assoc] at h
      rcases mem_append.mp h with h | h
      · exact .inr ⟨s, mem_cons_self, h⟩
      · rcases mem_append.mp h with h | h
        · exact .inl (mem_singleton.mp h)
        · exact (ih h).imp_right (fun ⟨t, ht, hc⟩ => ⟨t, mem_cons_of_mem s ht, hc⟩)

theorem Sections.digits (h : Sections ws sections) : sections ≠ [] ∨ ws = [] := by
  cases h with
  | plain =>
    by_cases hws : ws = []
    · exact .inr hws
    · exact .inl (fun hnil => hws (List.map_eq_nil_iff.mp hnil))
  | run => exact .inl (append_ne_nil_of_right_ne_nil _ (side_ne_nil _))

theorem Sections.isHex (h : Sections ws sections) : ∀ s ∈ sections, ∀ c ∈ s, isHex c = true := by
  have hmap (ws : List Nat) : ∀ s ∈ ws.map (Nat.toDigits 16), ∀ c ∈ s, IpText.isHex c = true := by
    intro s hs c hc
    obtain ⟨w, -, rfl⟩ := mem_map.mp hs
    obtain ⟨d, hd, rfl⟩ := mem_toDigits (by omega) hc
    exact isHex_digitChar hd
  have hside (ws : List Nat) : ∀ s ∈ side ws, ∀ c ∈ s, IpText.isHex c = true := by
    unfold side
    split
    · intro s hs c hc
      rw [mem_singleton.mp hs] at hc
      exact absurd hc not_mem_nil
    · exact hmap ws
  cases h with
  | plain => exact hmap ws
  | @run before n post =>
    intro s hs c hc
    rcases mem_append.mp hs with hs | hs
    · rcases mem_append.mp hs with hs | hs
      · exact hside before s hs c hc
      · rw [mem_singleton.mp hs] at hc
        exact absurd hc not_mem_nil
    · exact hside post s hs c hc

theorem length_side (ws : List Nat) : (side ws).length ≤ ws.length + 1 ∧
    (ws ≠ [] → (side ws).length = ws.length) := by
  unfold side
  split
  · rename_i hnil
    exact ⟨by simp, fun hne => absurd hnil hne⟩
  · exact ⟨by simp, fun _ => length_map _⟩

theorem Sections.length_le (h : Sections ws sections) (hlen : ws.length = 8) :
    sections.length ≤ 8 := by
  cases h with
  | plain => exact (length_map _).trans_le hlen.le
  | @run before n post hrun =>
    have hsum : before.length + (n + 2) + post.length = 8 := by
      rw [← hlen, hrun]
      simp [Nat.add_assoc]
    have hbefore := length_side before
    have hpost := length_side post
    rw [length_append, length_append, length_singleton]
    by_cases hnil : post = []
    · subst hnil
      by_cases hnil' : before = []
      · subst hnil'
        decide
      · have heq := hbefore.2 hnil'
        have hone : (side []).length = 1 := rfl
        rw [length_nil] at hsum
        omega
    · have heq := hpost.2 hnil
      omega

/-- The texts of IPv6 have no dot, so nothing in them is taken for IPv4. -/
theorem isV4Format_eq_false {s : List Char} (h : '.' ∉ s) : isV4Format s = false := by
  have hdot : Requires '.' (lit '.') := fun x hx => of_decide_eq_true hx
  have hr : Requires '.' ipv4Regex := Or.inr (Or.inl (Or.inl (Or.inl (Or.inl (Or.inr hdot)))))
  exact test_eq_false hr h

/-- One step of the loop of `splitV4`. -/
theorem splitV4_cons (bytesToUnprefixedHex : Bytes → String) (i : Nat) (s : List Char)
    (sections : List (List Char)) :
    splitV4 bytesToUnprefixedHex i (s :: sections) = if isV4Format s then
      (bytesToUnprefixedHex ((v4Bytes s).take 2)).toList ::
        if i + 1 < 8 then
          (bytesToUnprefixedHex (((v4Bytes s).take 4).drop 2)).toList ::
            splitV4 bytesToUnprefixedHex (i + 2) sections
        else
          match sections with
          | [] => []
          | s' :: sections => s' :: splitV4 bytesToUnprefixedHex (i + 2) sections
    else s :: splitV4 bytesToUnprefixedHex (i + 1) sections := by
  cases sections <;> rfl

theorem splitV4_eq_self (bytesToUnprefixedHex : Bytes → String)
    (h : ∀ s ∈ sections, isV4Format s = false) (i : Nat) :
    splitV4 bytesToUnprefixedHex i sections = sections := by
  induction sections generalizing i with
  | nil => rfl
  | cons s sections ih =>
    rw [forall_mem_cons] at h
    rw [splitV4_cons, h.1, if_neg Bool.false_ne_true, ih h.2]

theorem length_words (bytes : Bytes) : (words bytes).length = bytes.length / 2 := by
  fun_induction words bytes with
  | case1 hi lo bytes ih =>
    rw [length_cons, length_cons, length_cons, ih]
    omega
  | case2 bytes hne =>
    match bytes with
    | [] => rfl
    | [_] => exact (div_eq_of_lt (lt_succ_self 1)).symm
    | hi :: lo :: rest => exact absurd rfl (hne hi lo rest)

theorem words_lt (bytes : Bytes) : ∀ w ∈ words bytes, w < 65536 := by
  fun_induction words bytes with
  | case1 hi lo bytes ih =>
    rw [forall_mem_cons]
    refine ⟨?_, ih⟩
    have hhi := hi.toNat_lt
    have hlo := lo.toNat_lt
    omega
  | case2 bytes hne => exact fun w hw => absurd hw not_mem_nil

/-- The written text of 16 bytes is read back. -/
theorem ipToBytes_ipToString (bytesToUnprefixedHex : Bytes → String) {bytes : Bytes}
    (h : bytes.length = 16) : ipToBytes bytesToUnprefixedHex (ipToString bytes) = some bytes := by
  have hlen : (words bytes).length = 8 := by rw [length_words, h]
  obtain ⟨w, ws, hws⟩ := exists_cons_of_length_pos (l := words bytes) (by omega)
  obtain ⟨sections, hsections, htext⟩ := sections_of_words w ws
  rw [← hws] at hsections htext
  have hstring : ipToString bytes = [':'].intercalate sections := by
    unfold ipToString
    rw [if_neg (by omega), if_pos h]
    exact htext
  have hhex := hsections.isHex
  have hnotin (c : Char) (hc : isHex c = false) : ∀ s ∈ sections, c ∉ s := by
    intro s hs hmem
    rw [hhex s hs c hmem] at hc
    cases hc
  have hdots := hnotin '.' (by decide)
  have hv4 : isV4Format ([':'].intercalate sections) = false := by
    refine isV4Format_eq_false (fun hmem => ?_)
    rcases mem_intercalate hmem with hdot | ⟨s, hs, hc⟩
    · revert hdot
      decide
    · exact hdots s hs hc
  have hne : sections ≠ [] := hsections.digits.resolve_right (by rw [hws]; exact cons_ne_nil w ws)
  have hsplit := splitOn_intercalate ':' (hnotin ':' (by decide)) hne
  have hself := splitV4_eq_self bytesToUnprefixedHex (fun s hs => isV4Format_eq_false (hdots s hs)) 0
  unfold ipToBytes
  rw [hstring, hv4, if_neg Bool.false_ne_true,
    isV6Format_of_sections hlen (words_lt bytes) hsections, if_pos rfl, hsplit,
    take_of_length_le (hsections.length_le hlen), hself]
  dsimp only
  rw [fillZeros_sections hlen hsections, wordBytes_words (by rw [h]), h,
    take_of_length_le h.le]
  simp

/-! ## IPv4 -/

/-- A canonical dotted text of four numbers. -/
def CanonicalV4 (ip : List Char) : Prop :=
  ∃ ns : List Nat, ns.length = 4 ∧ (∀ n ∈ ns, n < 256) ∧ ip = ['.'].intercalate (ns.map (Nat.toDigits 10))

theorem mem_between_digit {n : Nat} (hn : n < 1000) (flag : Bool) (rest : List Char) :
    ⟨false, rest, []⟩ ∈ ways (between 1 3 digit) ⟨flag, Nat.toDigits 10 n ++ rest, []⟩ := by
  have hlen := (length_toDigits_le_iff (b := 10) (n := n) (k := 3) (by omega) (by omega)).mpr hn
  have hdigit (c : Char) (hc : c ∈ Nat.toDigits 10 n) : c.isDigit = true :=
    isDigit_of_mem_toDigits (by omega) (by omega) hc
  obtain ⟨c, t, hct⟩ := exists_cons_of_ne_nil (toDigits_ne_nil (n := n) (b := 10))
  rw [hct] at hlen hdigit ⊢
  have hfirst : ⟨false, t ++ rest, []⟩ ∈ ways (times 1 digit) ⟨flag, c :: (t ++ rest), []⟩ := by
    simp [times, ways, digit, hdigit c mem_cons_self]
  have hrest : ⟨false, rest, []⟩ ∈ ways (.upTo 2 digit) ⟨false, t ++ rest, []⟩ :=
    mem_ways_upTo (fun x hx => hdigit x (mem_cons_of_mem c hx)) (le_of_succ_le_succ hlen) false
  exact mem_ways_seq hfirst hrest

theorem isV4Format_of_canonical {a b c d : Nat} (ha : a < 256) (hb : b < 256) (hc : c < 256)
    (hd : d < 256) :
    isV4Format (['.'].intercalate ([a, b, c, d].map (Nat.toDigits 10))) = true := by
  have hdot (rest : List Char) : ⟨false, rest, []⟩ ∈ ways (lit '.') ⟨false, '.' :: rest, []⟩ := by
    simp [ways, lit]
  have hnumber (n : Nat) (hn : n < 256) (flag : Bool) (rest : List Char) :
      ⟨false, rest, []⟩ ∈ ways (.seq (between 1 3 digit) (lit '.'))
        ⟨flag, Nat.toDigits 10 n ++ '.' :: rest, []⟩ :=
    mem_ways_seq (mem_between_digit (by omega) flag _) (hdot rest)
  have hlast := mem_between_digit (n := d) (by omega) false []
  rw [append_nil] at hlast
  have htext : ['.'].intercalate ([a, b, c, d].map (Nat.toDigits 10)) =
      Nat.toDigits 10 a ++ '.' :: (Nat.toDigits 10 b ++ '.' :: (Nat.toDigits 10 c ++
        '.' :: Nat.toDigits 10 d)) := by simp
  rw [htext]
  refine test_of_mem (q := ⟨false, [], []⟩) (mem_ways_seq (mem_singleton_self _) (mem_ways_seq
    (mem_ways_seq ?_ hlast) (mem_singleton_self _)))
  refine mem_ways_seq ?_ (mem_iterate_self _ 0 _)
  exact mem_ways_seq (hnumber a ha true _) (mem_ways_seq (hnumber b hb false _)
    (mem_ways_seq (hnumber c hc false _) (mem_singleton_self _)))

/-- A canonical text is read as four bytes whose text it is. -/
theorem ipToBytes_canonical (bytesToUnprefixedHex : Bytes → String) {ip : List Char}
    (h : CanonicalV4 ip) : ∃ bytes : Bytes, bytes.length = 4 ∧
      ipToBytes bytesToUnprefixedHex ip = some bytes ∧ ipToString bytes = ip := by
  obtain ⟨ns, hlen, hns, rfl⟩ := h
  have hv4 : isV4Format (['.'].intercalate (ns.map (Nat.toDigits 10))) = true := by
    match ns, hlen with
    | [a, b, c, d], _ =>
      exact isV4Format_of_canonical (hns a (by simp)) (hns b (by simp)) (hns c (by simp)) (hns d (by simp))
  have hnodot : ∀ s ∈ ns.map (Nat.toDigits 10), '.' ∉ s := by
    intro s hs hmem
    obtain ⟨n, -, rfl⟩ := mem_map.mp hs
    have hdigit := isDigit_of_mem_toDigits (by omega) (by omega) hmem
    revert hdigit
    decide
  have hne : ns.map (Nat.toDigits 10) ≠ [] :=
    ne_nil_of_length_pos (by rw [length_map]; omega)
  refine ⟨ns.map UInt8.ofNat, by rw [length_map, hlen], ?_, ?_⟩
  · unfold ipToBytes v4Bytes
    rw [hv4, if_pos rfl, splitOn_intercalate '.' hnodot hne, map_map]
    refine congrArg some (map_congr_left (fun n hn => ?_))
    rw [comp_apply, parseInt_toDigits (by omega) (by omega), Option.getD_some]
  · unfold ipToString
    rw [if_pos (by rw [length_map, hlen]), map_map]
    refine congrArg _ (map_congr_left (fun n hn => ?_))
    rw [comp_apply, UInt8.toNat_ofNat_of_lt' (hns n hn)]

end IpText
