import Mathlib.Data.List.Basic
import Mathlib.Tactic.NormNum
import QuoteBoard.Snapshot

/-!
# The content of a snapshot

The bytes that a checksum is taken of tell what they were written from (`content_identifies`). A
name ends at the first separator, as long as it holds none itself; numbers have their width,
whatever bytes they are made of; and the levels end where no more bytes are left than the last trade
takes (`levels_inj`).
-/

namespace QuoteBoard

theorem append_separator_inj {α : Type} {x : α} {as bs rest rest' : List α} (ha : x ∉ as)
    (hb : x ∉ bs) (h : as ++ x :: rest = bs ++ x :: rest') : as = bs ∧ rest = rest' := by
  induction as generalizing bs with
  | nil =>
    cases bs with
    | nil => exact ⟨rfl, (List.cons.inj h).2⟩
    | cons b bs =>
      obtain ⟨hx, _⟩ := List.cons.inj h
      exact absurd (hx ▸ List.mem_cons_self ..) hb
  | cons a as ih =>
    cases bs with
    | nil =>
      obtain ⟨hx, _⟩ := List.cons.inj h
      exact absurd (hx ▸ List.mem_cons_self ..) ha
    | cons b bs =>
      obtain ⟨hab, h⟩ := List.cons.inj h
      obtain ⟨has, hrest⟩ := ih (List.not_mem_of_not_mem_cons ha) (List.not_mem_of_not_mem_cons hb) h
      exact ⟨by rw [hab, has], hrest⟩

theorem Price.eq_of_toUInt64_eq {p q : Price} (h : p.ticks.toUInt64 = q.ticks.toUInt64) : p = q := by
  obtain ⟨⟨x⟩⟩ := p
  obtain ⟨⟨y⟩⟩ := q
  exact congrArg (fun z => Price.mk (Int64.ofUInt64 z)) h

/-- What a snapshot says of a level in its checksum. -/
def Level.terms (l : Level) : ItemId × Price × Size := (l.item, l.price, l.size)

def LastTrade.terms (t : LastTrade) : Price × Size := (t.price, t.size)

namespace Snapshot

/-! ## Texts -/

theorem textBytes_inj {s t : String} (h : textBytes s = textBytes t) : s = t := by
  have hbytes : s.toList.utf8Encode = t.toList.utf8Encode := congrArg List.toByteArray h
  rw [← String.toByteArray_inj, ← @String.ofList_toList s, ← @String.ofList_toList t]
  rwa [String.toByteArray_ofList, String.toByteArray_ofList]

/-- Only characters below 128 have bytes below 128. -/
theorem toNat_of_mem_utf8EncodeChar {c : Char} {b : UInt8} (hb : b ∈ String.utf8EncodeChar c)
    (hlt : b.toNat < 128) : c.toNat = b.toNat := by
  have hcode : c.toNat = c.val.toNat := rfl
  rw [String.utf8EncodeChar] at hb
  split at hb
  · rw [List.mem_singleton.mp hb, UInt8.toNat_ofNat']
    omega
  · -- every byte of a longer form is at least 128
    exfalso
    split at hb
    · simp only [List.mem_cons, List.not_mem_nil, or_false] at hb
      rcases hb with rfl | rfl <;> rw [UInt8.toNat_ofNat'] at hlt <;> omega
    · split at hb
      · simp only [List.mem_cons, List.not_mem_nil, or_false] at hb
        rcases hb with rfl | rfl | rfl <;> rw [UInt8.toNat_ofNat'] at hlt <;> omega
      · simp only [List.mem_cons, List.not_mem_nil, or_false] at hb
        rcases hb with rfl | rfl | rfl | rfl <;> rw [UInt8.toNat_ofNat'] at hlt <;> omega

theorem mem_of_mem_textBytes {c : Char} (hc : c.toNat < 128) {s : String}
    (h : UInt8.ofNat c.toNat ∈ textBytes s) : c ∈ s.toList := by
  obtain ⟨d, hd, hmem⟩ := List.mem_flatMap.mp h
  have hbyte : (UInt8.ofNat c.toNat).toNat = c.toNat := by
    rw [UInt8.toNat_ofNat']
    omega
  have hcode := toNat_of_mem_utf8EncodeChar hmem (by rwa [hbyte])
  rw [hbyte] at hcode
  rwa [← Char.toNat_inj.mp hcode]

/-! ## Numbers -/

theorem length_wordBytes (x : UInt64) : (wordBytes x).length = 8 := by
  simp [wordBytes]

theorem mod_pow_eq_of_digits {b x y : Nat} (k : Nat)
    (h : ∀ i < k, x / b ^ i % b = y / b ^ i % b) : x % b ^ k = y % b ^ k := by
  induction k with
  | zero => simp [Nat.mod_one]
  | succ k ih =>
    have hlow := ih fun i hi => h i (Nat.lt_succ_of_lt hi)
    rw [Nat.mod_pow_succ, Nat.mod_pow_succ, hlow, h k (Nat.lt_succ_self k)]

theorem wordBytes_inj {x y : UInt64} (h : wordBytes x = wordBytes y) : x = y := by
  have hdigits : ∀ i < 8, x.toNat / 256 ^ i % 256 = y.toNat / 256 ^ i % 256 := by
    intro i hi
    have hbyte := List.map_inj_left.mp h i (List.mem_range.mpr hi)
    have hnat := congrArg UInt8.toNat hbyte
    simpa using hnat
  have hmod := mod_pow_eq_of_digits 8 hdigits
  have hfits : ∀ z : UInt64, z.toNat < 256 ^ 8 := fun z => lt_of_lt_of_eq z.toNat_lt (by norm_num)
  rwa [Nat.mod_eq_of_lt (hfits x), Nat.mod_eq_of_lt (hfits y), UInt64.toNat_inj] at hmod

theorem wordBytes_append_inj {x y : UInt64} {rest rest' : List UInt8}
    (h : wordBytes x ++ rest = wordBytes y ++ rest') : x = y ∧ rest = rest' := by
  obtain ⟨hword, hrest⟩ := List.append_inj h (by rw [length_wordBytes, length_wordBytes])
  exact ⟨wordBytes_inj hword, hrest⟩

/-! ## Levels and the last trade -/

theorem levelBytes_append_inj {l m : Level} {rest rest' : List UInt8}
    (hl : ':' ∉ l.item.name.toList) (hm : ':' ∉ m.item.name.toList)
    (h : levelBytes l ++ rest = levelBytes m ++ rest') :
    l.item = m.item ∧ l.price = m.price ∧ l.size = m.size ∧ rest = rest' := by
  have hcolon : textBytes ":" = [UInt8.ofNat ':'.toNat] := by decide
  simp only [levelBytes, hcolon, List.append_assoc, List.singleton_append] at h
  obtain ⟨hname, h⟩ := append_separator_inj (mt (mem_of_mem_textBytes (by decide)) hl)
    (mt (mem_of_mem_textBytes (by decide)) hm) h
  obtain ⟨hprice, h⟩ := wordBytes_append_inj h
  obtain ⟨hsize, h⟩ := wordBytes_append_inj (List.cons.inj h).2
  refine ⟨?_, Price.eq_of_toUInt64_eq hprice, ?_, List.append_cancel_left h⟩
  · exact congrArg ItemId.mk (textBytes_inj hname)
  · exact congrArg Size.mk hsize

theorem le_length_levelBytes (l : Level) : 19 ≤ (levelBytes l).length := by
  have hcolon : (textBytes ":").length = 1 := by decide
  have hbar : (textBytes "|").length = 1 := by decide
  simp only [levelBytes, List.length_append, length_wordBytes, hcolon, hbar]
  omega

/-- What follows the levels. -/
def closing (t : Option LastTrade) : List UInt8 := textBytes "---" ++ (t.map tradeBytes).getD []

theorem length_closing (t : Option LastTrade) :
    (closing t).length = 3 + if t.isSome then 17 else 0 := by
  have hdashes : (textBytes "---").length = 3 := by decide
  have hcolon : (textBytes ":").length = 1 := by decide
  cases t <;> simp [closing, tradeBytes, length_wordBytes, hdashes, hcolon]

theorem closing_inj {t u : Option LastTrade} (h : closing t = closing u) :
    t.map LastTrade.terms = u.map LastTrade.terms := by
  have hlength := congrArg List.length h
  rw [length_closing, length_closing] at hlength
  cases t with
  | none =>
    cases u with
    | none => rfl
    | some b => simp at hlength
  | some a =>
    cases u with
    | none => simp at hlength
    | some b =>
      have hbytes : tradeBytes a = tradeBytes b := List.append_cancel_left h
      simp only [tradeBytes, List.append_assoc] at hbytes
      obtain ⟨hprice, hbytes⟩ := wordBytes_append_inj hbytes
      have hsize := wordBytes_inj (List.append_cancel_left hbytes)
      have hsizes : a.size = b.size := congrArg Size.mk hsize
      simp [LastTrade.terms, Price.eq_of_toUInt64_eq hprice, hsizes]

/-- A level and the dashes are longer than the dashes and a trade. -/
theorem closing_ne (t u : Option LastTrade) (l : Level) (ls : List Level) :
    closing t ≠ (l :: ls).flatMap levelBytes ++ closing u := by
  intro h
  have hlength := congrArg List.length h
  have hlevel := le_length_levelBytes l
  simp only [List.flatMap_cons, List.length_append, length_closing] at hlength
  split at hlength <;> split at hlength <;> omega

theorem levels_inj {ls ms : List Level} {t u : Option LastTrade}
    (hls : ∀ l ∈ ls, ':' ∉ l.item.name.toList) (hms : ∀ m ∈ ms, ':' ∉ m.item.name.toList)
    (h : ls.flatMap levelBytes ++ closing t = ms.flatMap levelBytes ++ closing u) :
    ls.map Level.terms = ms.map Level.terms ∧ t.map LastTrade.terms = u.map LastTrade.terms := by
  induction ls generalizing ms with
  | nil =>
    cases ms with
    | nil => exact ⟨rfl, closing_inj h⟩
    | cons m ms => exact absurd h (closing_ne t u m ms)
  | cons l ls ih =>
    cases ms with
    | nil => exact absurd h.symm (closing_ne u t l ls)
    | cons m ms =>
      obtain ⟨hl, hls⟩ := List.forall_mem_cons.mp hls
      obtain ⟨hm, hms⟩ := List.forall_mem_cons.mp hms
      simp only [List.flatMap_cons, List.append_assoc] at h
      obtain ⟨hitem, hprice, hsize, hrest⟩ := levelBytes_append_inj hl hm h
      obtain ⟨hlevels, htrade⟩ := ih hls hms hrest
      exact ⟨by simp [Level.terms, hitem, hprice, hsize, hlevels], htrade⟩

/-! ## Feed and side -/

theorem toList_label (f : Feed) :
    f.label.toList = f.name.toList ++ '#' :: Nat.toDigits 10 f.number.toNat := by
  simp [Feed.label]

theorem not_mem_toDigits {c : Char} (hc : c.isDigit = false) (n : Nat) :
    c ∉ Nat.toDigits 10 n := fun h => by
  have hdigit := Nat.isDigit_of_mem_toDigits (by decide) (by decide) h
  rw [hc] at hdigit
  cases hdigit

theorem not_mem_label {f : Feed} (hf : '|' ∉ f.name.toList) : '|' ∉ f.label.toList := by
  rw [toList_label, List.mem_append, List.mem_cons, not_or, not_or]
  exact ⟨hf, by decide, not_mem_toDigits (by decide) _⟩

/-- A number holds no `#`, so the last one ends the name of a feed. -/
theorem label_inj {f g : Feed} (h : f.label = g.label) : f = g := by
  have hchars := congrArg (fun s => s.toList.reverse) h
  simp only [toList_label, List.reverse_append, List.reverse_cons, List.append_assoc,
    List.singleton_append] at hchars
  have hdigits : ∀ n, '#' ∉ (Nat.toDigits 10 n).reverse := fun n hn =>
    not_mem_toDigits (by decide) n (List.mem_reverse.mp hn)
  obtain ⟨hnumber, hname⟩ := append_separator_inj (hdigits _) (hdigits _) hchars
  have hnumber : f.number.toNat = g.number.toNat := by
    have hread := congrArg (Nat.ofDigitChars 10 · 0) (List.reverse_injective hnumber)
    simpa only [Nat.ofDigitChars_ten_toDigits] using hread
  obtain ⟨name, number⟩ := f
  obtain ⟨name', number'⟩ := g
  rw [Feed.mk.injEq, ← String.toList_inj, ← UInt32.toNat_inj]
  exact ⟨List.reverse_injective hname, hnumber⟩

theorem side_inj {s t : Side} (h : textBytes s.label = textBytes t.label) : s = t := by
  have hlabel := textBytes_inj h
  revert hlabel
  cases s <;> cases t <;> decide

theorem not_mem_side (s : Side) : UInt8.ofNat '|'.toNat ∉ textBytes s.label := by
  cases s <;> decide

/-! ## All of it -/

/-- What the checksum of a snapshot covers. -/
structure Covered where
  feed : Feed
  side : Side
  batch : BatchId
  levels : List (ItemId × Price × Size)
  trade : Option (Price × Size)
  deriving DecidableEq

def covered (s : Snapshot) : Covered where
  feed := s.view.feed
  side := s.view.side
  batch := s.batch
  levels := s.view.levels.map fun r => r.level.terms
  trade := s.view.trade.map LastTrade.terms

def Covered.bytes (c : Covered) : List UInt8 :=
  let level (l : ItemId × Price × Size) : List UInt8 :=
    textBytes l.1.name ++ textBytes ":" ++ wordBytes l.2.1.ticks.toUInt64 ++ textBytes ":" ++
      wordBytes l.2.2.bits ++ textBytes "|"
  let trade (t : Price × Size) : List UInt8 :=
    wordBytes t.1.ticks.toUInt64 ++ textBytes ":" ++ wordBytes t.2.bits
  textBytes c.feed.label ++ textBytes "|" ++ textBytes c.side.label ++ textBytes "|" ++
    wordBytes c.batch.value ++ textBytes "---" ++ c.levels.flatMap level ++ textBytes "---" ++
    (c.trade.map trade).getD []

theorem content_eq_bytes (s : Snapshot) : s.content = s.covered.bytes := by
  simp only [content, Covered.bytes, covered, List.flatMap_map, Option.map_map]
  rfl

/-- No name holds the separator that ends it. -/
structure Delimited (s : Snapshot) : Prop where
  feed : '|' ∉ s.view.feed.name.toList
  items : ∀ r ∈ s.view.levels, ':' ∉ r.level.item.name.toList

theorem content_eq (s : Snapshot) :
    s.content = textBytes s.view.feed.label ++ UInt8.ofNat '|'.toNat ::
      (textBytes s.view.side.label ++ UInt8.ofNat '|'.toNat ::
        (wordBytes s.batch.value ++ (textBytes "---" ++
          ((s.view.levels.map (·.level)).flatMap levelBytes ++ closing s.view.trade)))) := by
  have hbar : textBytes "|" = [UInt8.ofNat '|'.toNat] := by decide
  simp [content, closing, hbar, List.flatMap_map]

theorem content_inj {s t : Snapshot} (hs : s.Delimited) (ht : t.Delimited)
    (h : s.content = t.content) : s.covered = t.covered := by
  have hname : ∀ {u : Snapshot}, u.Delimited → UInt8.ofNat '|'.toNat ∉ textBytes u.view.feed.label :=
    fun hu hmem => not_mem_label hu.feed (mem_of_mem_textBytes (by decide) hmem)
  have hitems : ∀ {u : Snapshot}, u.Delimited →
      ∀ l ∈ u.view.levels.map (·.level), ':' ∉ l.item.name.toList := fun hu l hl => by
    obtain ⟨r, hr, rfl⟩ := List.mem_map.mp hl
    exact hu.items r hr
  rw [content_eq, content_eq] at h
  obtain ⟨hfeed, h⟩ := append_separator_inj (hname hs) (hname ht) h
  obtain ⟨hside, h⟩ := append_separator_inj (not_mem_side _) (not_mem_side _) h
  obtain ⟨hbatch, h⟩ := wordBytes_append_inj h
  obtain ⟨hlevels, htrade⟩ := levels_inj (hitems hs) (hitems ht) (List.append_cancel_left h)
  rw [List.map_map, List.map_map] at hlevels
  rw [covered, covered, Covered.mk.injEq]
  exact ⟨label_inj (textBytes_inj hfeed), side_inj hside, congrArg BatchId.mk hbatch, hlevels, htrade⟩

/-- As long as no name of a feed holds a bar and no item a colon, two snapshots have the same
content exactly when they agree on what the checksum covers. Nothing else in them makes a difference
to the checksum. -/
theorem content_identifies {s t : Snapshot} (hs : s.Delimited) (ht : t.Delimited) :
    (s.content = t.content ↔ s.covered = t.covered) ∧
      (s.covered = t.covered → s.checksum = t.checksum ∧ s.verify t.checksum = true) := by
  have hcontent : s.covered = t.covered → s.content = t.content := fun h => by
    rw [content_eq_bytes, content_eq_bytes, h]
  refine ⟨⟨content_inj hs ht, hcontent⟩, fun h => ?_⟩
  have hsum : s.checksum = t.checksum := congrArg Sha256.hex (hcontent h)
  exact ⟨hsum, by rw [verify, hsum, beq_self_eq_true]⟩

/-- Items that look like what stands between the parts. -/
def sampleSnapshot (full : Bool) (committedAt : Timestamp) (trade : Option LastTrade) : Snapshot :=
  let level (name : String) (price : Int64) : Level := ⟨⟨name⟩, ⟨price⟩, ⟨0x3A⟩, .bid, ⟨3⟩, 5⟩
  ⟨⟨4⟩, full, committedAt,
    .ofLevels ⟨"XYZ#1", 2⟩ .bid [level "---" 0x7C7C, level "" (-1), level "a|b---" 0x3A] trade 7⟩

theorem content_identifies_sample :
    let last : LastTrade := ⟨⟨100⟩, ⟨0x2D2D2D⟩, .offer, ⟨4⟩, 6⟩
    let s := sampleSnapshot true 7 (some last)
    let t := sampleSnapshot false 8 (some { last with side := .bid })
    let u := sampleSnapshot true 7 none
    (s.Delimited ∧ t.Delimited ∧ u.Delimited) ∧ s.content = t.content ∧ s.content ≠ u.content := by
  intro last s t u
  have hs : s.Delimited := ⟨by decide, by decide⟩
  have ht : t.Delimited := ⟨by decide, by decide⟩
  have hu : u.Delimited := ⟨by decide, by decide⟩
  refine ⟨⟨hs, ht, hu⟩, (content_identifies hs ht).1.mpr rfl, ?_⟩
  exact (content_identifies hs hu).1.not.mpr (by decide)

end Snapshot

end QuoteBoard
