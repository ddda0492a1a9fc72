/-
Containers as they are printed, whole and cut off.

In front of anything that may follow it, a printed text is read as one value and no further, or
refused, and a text that is cut off inside of it is refused or leaves nothing (`Printed`). For
items with printed texts `parseItems_listing` says what their container is read as, and
`parseItems_cut` what becomes of it when it is cut off: the loop ends without the closing bracket
in front of the first item and right behind a comma, everywhere else the text is refused.
-/
import NanoVault.Json.Parser

namespace NanoVault.Json

open Lib NanoVault.Table

def Blank (gap : Text) : Prop := ∀ c ∈ gap, isSpace c = true

/-- What may stand behind a value: nothing that could go on with a number. -/
def Follows (rest : Text) : Prop :=
  ∀ c, rest.head? = some c → c.isDigit = false ∧ c ≠ '.' ∧ c ≠ 'e' ∧ c ≠ 'E'

variable {δ α β : Type} {D : Doubles δ} {text rest gap last t q : Text}
  {p item : Text → Except Fault (α × Text)} {o : Option α}

/-- A parser that skips blanks, and wants something behind them. -/
structure SkipsBlanks (p : Text → Except Fault (α × Text)) : Prop where
  blanks : ∀ gap text, Blank gap → p (gap ++ text) = p text
  nothing : (p []).toOption = none
  leavesEnd : LeavesEnd p

/-- A text that a parser answers with a value, or refuses, whatever follows. -/
structure Printed (p : Text → Except Fault (α × Text)) (t : Text) (o : Option α) : Prop where
  head : ∃ c cs, t = c :: cs ∧ isSpace c = false ∧ c ≠ ']' ∧ c ≠ '\x7d'
  answers : ∀ rest, Follows rest → (p (t ++ rest)).toOption = o.map fun v => (v, rest)
  stops : ∀ q, q <+: t → ∀ v rest, (p q).toOption = some (v, rest) → rest = []

/-! ### Texts cut off -/

/-- A text cut off in front of the end of the first part, or behind it. -/
theorem prefix_append_cases {a b : Text} (h : q <+: a ++ b) :
    q <+: a ∨ ∃ q', q = a ++ q' ∧ q' ≠ [] ∧ q' <+: b := by
  rcases List.prefix_or_prefix_of_prefix h (List.prefix_append a b) with hq | ⟨q', rfl⟩
  · exact .inl hq
  · by_cases hq : q' = []
    · subst hq
      exact .inl ⟨[], by simp⟩
    · exact .inr ⟨q', rfl, hq, (List.prefix_append_right_inj a).mp h⟩

theorem toOption_bind {x : Except Fault α} {f : α → Except Fault β} :
    (x >>= f).toOption = x.toOption.bind fun a => (f a).toOption := by
  cases x <;> rfl

theorem toOption_eq_none {x : Except Fault α} (h : x.toOption = none) : ∃ e, x = .error e := by
  cases x with
  | error e => exact ⟨e, rfl⟩
  | ok a => cases h

theorem toOption_eq_some {x : Except Fault α} {a : α} (h : x.toOption = some a) : x = .ok a := by
  cases x with
  | error e => cases h
  | ok a' => cases h; rfl

/-- Blanks in front are skipped. -/
theorem skipWhitespace_blank (h : Blank gap) (text : Text) :
    skipWhitespace (gap ++ text) = skipWhitespace text :=
  List.dropWhile_append_of_pos h

theorem skipWhitespace_all (h : Blank gap) : skipWhitespace gap = [] :=
  List.dropWhile_eq_nil_iff.mpr h

theorem skipWhitespace_cons {c : Char} (h : isSpace c = false) (text : Text) :
    skipWhitespace (c :: text) = c :: text :=
  List.dropWhile_cons_of_neg (by simp [h])

/-- What follows a number is a blank, a comma or the end of a container. -/
theorem Follows.of_head {c : Char} (h : isSpace c = true ∨ c = ',' ∨ c = ']' ∨ c = '\x7d')
    (text : Text) : Follows (c :: text) := by
  intro d hd
  cases hd
  rcases h with hspace | rfl | rfl | rfl
  · simp only [isSpace, Bool.or_eq_true, beq_iff_eq] at hspace
    rcases hspace with ((((rfl | rfl) | rfl) | rfl) | rfl) | rfl <;> decide
  · decide
  · decide
  · decide

/-- A text in front of which blanks and a closing bracket may stand. -/
theorem Follows.cutOff {c : Char} (hlast : Blank last) (hc : c = ']' ∨ c = '\x7d')
    (hq : q <+: last ++ [c]) : Follows q := by
  cases q with
  | nil => exact fun d hd => by cases hd
  | cons d q =>
      refine Follows.of_head ?_ q
      obtain ⟨s, hs⟩ := hq
      cases last with
      | nil =>
          obtain ⟨rfl, -⟩ := List.cons.inj hs
          exact .inr (.inr hc)
      | cons b last =>
          obtain ⟨rfl, -⟩ := List.cons.inj hs
          exact .inl (hlast d List.mem_cons_self)

theorem Follows.of_last {c : Char} (hlast : Blank last) (hc : c = ']' ∨ c = '\x7d')
    (text : Text) : Follows (last ++ c :: text) := by
  cases last with
  | nil => exact .of_head (.inr (.inr hc)) text
  | cons b last => exact .of_head (.inl (hlast b List.mem_cons_self)) _

/-- The beginning of blanks is blank. -/
theorem Blank.cutOff (h : Blank gap) (hq : q <+: gap) : Blank q :=
  fun c hc => h c (hq.subset hc)

/-! ### Containers -/

section Containers

variable {close : Char} {unexpected expected : Text} {turns : Nat} {ts : List Text}
  {os : List (Option α)} {v : α}

/-- The texts of a container, each behind the same blanks. -/
def listing (gap : Text) : List Text → Text
  | [] => []
  | t :: ts => gap ++ (t ++ ts.flatMap fun t => ',' :: (gap ++ t))

/-- The texts in front of a cut, each with its comma. -/
def front (gap : Text) (ts : List Text) : Text := ts.flatMap fun t => gap ++ (t ++ [','])

/-- An item that is refused ends the container. -/
theorem itemsLoop_refused (htext : text ≠ []) (hitem : (item text).toOption = none) :
    (itemsLoop item close unexpected expected (turns + 1) text).toOption = none := by
  obtain ⟨c, cs, rfl⟩ := List.exists_cons_of_ne_nil htext
  obtain ⟨e, he⟩ := toOption_eq_none hitem
  rw [itemsLoop, he]
  rfl

/-- A container that ends with an item is refused. -/
theorem itemsLoop_end (htext : text ≠ []) (hitem : item text = .ok (v, rest))
    (hrest : skipWhitespace rest = []) :
    (itemsLoop item close unexpected expected (turns + 1) text).toOption = none := by
  obtain ⟨c, cs, rfl⟩ := List.exists_cons_of_ne_nil htext
  rw [itemsLoop, hitem]
  simp only [bind, Except.bind, hrest]
  rfl

/-- A container ends at its closing character. -/
theorem itemsLoop_close (htext : text ≠ []) (hitem : item text = .ok (v, rest)) {rest' : Text}
    (hrest : skipWhitespace rest = close :: rest') :
    itemsLoop item close unexpected expected (turns + 1) text = .ok ([v], rest') := by
  obtain ⟨c, cs, rfl⟩ := List.exists_cons_of_ne_nil htext
  rw [itemsLoop, hitem]
  simp only [bind, Except.bind, hrest, if_true]
  rfl

/-- Behind a comma the next item is read. -/
theorem itemsLoop_comma (hclose : close ≠ ',') (htext : text ≠ [])
    (hitem : item text = .ok (v, rest)) {rest' : Text} (hrest : skipWhitespace rest = ',' :: rest') :
    (itemsLoop item close unexpected expected (turns + 1) text).toOption =
      (itemsLoop item close unexpected expected turns rest').toOption.map fun r =>
        (v :: r.1, r.2) := by
  obtain ⟨c, cs, rfl⟩ := List.exists_cons_of_ne_nil htext
  rw [itemsLoop, hitem]
  simp only [bind, Except.bind, hrest, if_neg (Ne.symm hclose), if_true]
  cases itemsLoop item close unexpected expected turns rest' <;> rfl

theorem mapM_some : (some v :: os).mapM id = (os.mapM id).map (v :: ·) := by
  rw [List.mapM_cons]
  cases os.mapM id <;> rfl

/-- A container that is there as a whole is read as its items. -/
theorem itemsLoop_listing (hp : SkipsBlanks item) (hclose : close = ']' ∨ close = '\x7d')
    (hgap : Blank gap) (hlast : Blank last) (h : List.Forall₂ (Printed item) ts os)
    (hne : ts ≠ []) (hturns : (listing gap ts ++ (last ++ close :: rest)).length ≤ turns) :
    (itemsLoop item close unexpected expected turns
      (listing gap ts ++ (last ++ close :: rest))).toOption =
      (os.mapM id).map fun vs => (vs, rest) := by
  have hcomma : close ≠ ',' := by
    rcases hclose with rfl | rfl <;> decide
  induction h generalizing turns with
  | nil => exact absurd rfl hne
  | @cons t o ts os ht hts ih =>
      obtain ⟨c, cs, hhead, -⟩ := ht.head
      have htext : listing gap (t :: ts) ++ (last ++ close :: rest) ≠ [] := by
        simp [listing, hhead]
      obtain ⟨turns, rfl⟩ := Nat.exists_eq_add_one.mpr
        ((List.length_pos_of_ne_nil htext).trans_le hturns)
      have hitem : ∀ behind, Follows behind → listing gap (t :: ts) ++ (last ++ close :: rest) =
          gap ++ (t ++ behind) →
          (item (listing gap (t :: ts) ++ (last ++ close :: rest))).toOption =
            o.map fun v => (v, behind) := by
        intro behind hbehind heq
        rw [heq, hp.blanks _ _ hgap]
        exact ht.answers behind hbehind
      cases hts with
      | nil =>
          have hanswer := hitem (last ++ close :: rest) (Follows.of_last hlast hclose rest)
            (by simp [listing])
          cases o with
          | none => rw [itemsLoop_refused htext hanswer]; rfl
          | some v =>
              have hskip : skipWhitespace (last ++ close :: rest) = close :: rest := by
                rw [skipWhitespace_blank hlast]
                exact skipWhitespace_cons (by rcases hclose with rfl | rfl <;> decide) rest
              rw [itemsLoop_close htext (toOption_eq_some hanswer) hskip]
              rfl
      | @cons t' o' ts os ht' hts =>
          have hanswer := hitem (',' :: (listing gap (t' :: ts) ++ (last ++ close :: rest)))
            (Follows.of_head (.inr (.inl rfl)) _) (by simp [listing])
          have hshorter : (listing gap (t' :: ts) ++ (last ++ close :: rest)).length <
              (listing gap (t :: t' :: ts) ++ (last ++ close :: rest)).length := by
            simp only [listing, List.flatMap_cons, List.length_append, List.length_cons]
            omega
          cases o with
          | none => rw [itemsLoop_refused htext hanswer]; rfl
          | some v =>
              rw [itemsLoop_comma hcomma htext (toOption_eq_some hanswer)
                (skipWhitespace_cons (by decide) _), ih (by simp) (by omega), mapM_some,
                Option.map_map, Option.map_map]
              rfl

/-- A container that is cut off is refused, unless the cut is behind a comma or in front of
everything. -/
theorem itemsLoop_cut (hp : SkipsBlanks item) (hclose : close = ']' ∨ close = '\x7d')
    (hgap : Blank gap) (hlast : Blank last) (h : List.Forall₂ (Printed item) ts os)
    (hne : ts ≠ []) (hq : q <+: listing gap ts ++ (last ++ [close])) (hturns : q.length ≤ turns) :
    q = listing gap ts ++ (last ++ [close]) ∨
      (itemsLoop item close unexpected expected turns q).toOption = none ∨
      ∃ k < ts.length, q = front gap (ts.take k) := by
  have hcomma : close ≠ ',' := by
    rcases hclose with rfl | rfl <;> decide
  induction h generalizing turns q with
  | nil => exact absurd rfl hne
  | @cons t o ts os ht hts ih =>
      by_cases hnil : q = []
      · subst hnil
        exact .inr (.inr ⟨0, Nat.succ_pos _, rfl⟩)
      obtain ⟨turns, rfl⟩ := Nat.exists_eq_add_one.mpr
        ((List.length_pos_of_ne_nil hnil).trans_le hturns)
      have hend : ∀ v rest, (item q).toOption = some (v, rest) → skipWhitespace rest = [] →
          (itemsLoop item close unexpected expected (turns + 1) q).toOption = none :=
        fun v rest hitem hrest => itemsLoop_end hnil (toOption_eq_some hitem) hrest
      have hrefused : (item q).toOption = none →
          (itemsLoop item close unexpected expected (turns + 1) q).toOption = none :=
        itemsLoop_refused hnil
      rw [listing, List.append_assoc, List.append_assoc] at hq
      -- The cut lies in the blanks before the item, in the item, or behind it.
      rcases prefix_append_cases hq with hq | ⟨q₁, rfl, hq₁, hq⟩
      · have hitem := hp.blanks q [] (hgap.cutOff hq)
        rw [List.append_nil] at hitem
        exact .inr (.inl (hrefused (by rw [hitem, hp.nothing])))
      rw [hp.blanks _ _ hgap] at hend hrefused
      rcases prefix_append_cases hq with hq | ⟨q₂, rfl, hq₂, hq⟩
      · cases hitem : (item q₁).toOption with
        | none => exact .inr (.inl (hrefused hitem))
        | some r =>
            have hrest := ht.stops q₁ hq r.1 r.2 hitem
            exact .inr (.inl (hend r.1 r.2 hitem (by rw [hrest]; rfl)))
      have hfollows : Follows q₂ := by
        cases hts with
        | nil => exact .cutOff hlast hclose hq
        | cons ht' hts =>
            obtain ⟨c, q₂, rfl⟩ := List.exists_cons_of_ne_nil hq₂
            obtain ⟨s, hs⟩ := hq
            obtain ⟨rfl, -⟩ := List.cons.inj hs
            exact .of_head (.inr (.inl rfl)) _
      have hanswer := ht.answers q₂ hfollows
      cases o with
      | none => exact .inr (.inl (hrefused hanswer))
      | some v =>
          cases hts with
          | nil =>
              rw [List.flatMap_nil, List.nil_append] at hq
              rcases prefix_append_cases hq with hq | ⟨q₃, rfl, hq₃, hq⟩
              · exact .inr (.inl (hend v q₂ hanswer (skipWhitespace_all (hlast.cutOff hq))))
              · rcases List.prefix_cons_iff.mp hq with rfl | ⟨q₄, rfl, hnone⟩
                · exact absurd rfl hq₃
                · obtain rfl := List.prefix_nil.mp hnone
                  exact .inl (by simp [listing])
          | @cons t' o' ts os ht' hts =>
              have heq : (t' :: ts).flatMap (fun t => ',' :: (gap ++ t)) ++ (last ++ [close]) =
                  ',' :: (listing gap (t' :: ts) ++ (last ++ [close])) := by
                simp [listing]
              rw [heq] at hq
              rcases List.prefix_cons_iff.mp hq with rfl | ⟨q₃, rfl, hq₃⟩
              · exact absurd rfl hq₂
              have hloop : (itemsLoop item close unexpected expected (turns + 1)
                  (gap ++ (t ++ ',' :: q₃))).toOption = _ :=
                itemsLoop_comma hcomma hnil
                  (toOption_eq_some ((congrArg Except.toOption (hp.blanks _ _ hgap)).trans hanswer))
                  (skipWhitespace_cons (by decide) q₃)
              rw [hloop]
              simp only [List.length_append, List.length_cons] at hturns
              rcases ih (by simp) hq₃ (show q₃.length ≤ turns by omega) with
                rfl | hnone | ⟨k, hk, rfl⟩
              · exact .inl (by simp [listing])
              · rw [hnone]
                exact .inr (.inl rfl)
              · exact .inr (.inr ⟨k + 1, Nat.succ_lt_succ hk, by simp [front]⟩)

/-- What is cut off behind a comma is read as the items in front of it. -/
theorem itemsLoop_front (hp : SkipsBlanks item) (hcomma : close ≠ ',') (hgap : Blank gap)
    (h : List.Forall₂ (Printed item) ts os) (hturns : (front gap ts).length ≤ turns) :
    (itemsLoop item close unexpected expected turns (front gap ts)).toOption =
      (os.mapM id).map fun vs => (vs, []) := by
  induction h generalizing turns with
  | nil => cases turns <;> rfl
  | @cons t o ts os ht hts ih =>
      obtain ⟨c, cs, hhead, -⟩ := ht.head
      have heq : front gap (t :: ts) = gap ++ (t ++ ',' :: front gap ts) := by simp [front]
      have htext : front gap (t :: ts) ≠ [] := by simp [heq]
      obtain ⟨turns, rfl⟩ := Nat.exists_eq_add_one.mpr
        ((List.length_pos_of_ne_nil htext).trans_le hturns)
      have hanswer : (item (front gap (t :: ts))).toOption =
          o.map fun v => (v, ',' :: front gap ts) := by
        rw [heq, hp.blanks _ _ hgap]
        exact ht.answers _ (.of_head (.inr (.inl rfl)) _)
      cases o with
      | none => rw [itemsLoop_refused htext hanswer]; rfl
      | some v =>
          rw [heq, List.length_append, List.length_append, List.length_cons] at hturns
          rw [itemsLoop_comma hcomma htext (toOption_eq_some hanswer)
            (skipWhitespace_cons (by decide) _), ih (by omega), mapM_some, Option.map_map,
            Option.map_map]
          rfl

/-- Behind the opening bracket the loop starts, unless the closing one follows. -/
theorem parseItems_eq_loop (hp : SkipsBlanks item) {c : Char} {cs : Text}
    (hskip : skipWhitespace text = c :: cs) (hc : c ≠ close) :
    parseItems item close unexpected expected text =
      itemsLoop item close unexpected expected text.length text := by
  have hsplit : text.takeWhile isSpace ++ c :: cs = text := by
    rw [← hskip]
    exact List.takeWhile_append_dropWhile
  have hgap : Blank (text.takeWhile isSpace) := fun d hd => List.mem_takeWhile_imp hd
  have hlength : (c :: cs).length ≤ text.length :=
    hskip ▸ (skipWhitespace_suffix text).length_le
  obtain ⟨n, hn⟩ := Nat.exists_eq_add_one.mpr ((Nat.succ_pos _).trans_le hlength)
  obtain ⟨d, ds, htext⟩ : ∃ d ds, text = d :: ds := by
    refine List.exists_cons_of_ne_nil fun hnil => ?_
    rw [hnil] at hn
    cases hn
  have hitem : item (d :: ds) = item (c :: cs) := by
    rw [← htext, ← hsplit, hp.blanks _ _ hgap]
  have hmore : itemsLoop item close unexpected expected (c :: cs).length (c :: cs) =
      itemsLoop item close unexpected expected text.length (c :: cs) :=
    itemsLoop_agree (fun _ _ => rfl) hp.leavesEnd le_rfl le_rfl hlength
  rw [parseItems, hskip]
  dsimp only
  rw [if_neg hc, hmore, hn, htext, itemsLoop, itemsLoop, hitem]

/-- A listing does not begin with the closing character. -/
theorem head_listing (hgap : Blank gap) {t : Text} {o : Option α} (ht : Printed item t o)
    (hclose : close = ']' ∨ close = '\x7d') (tail : Text) :
    ∃ c cs, skipWhitespace (gap ++ (t ++ tail)) = c :: cs ∧ c ≠ close := by
  obtain ⟨c, cs, rfl, hspace, hbracket, hbrace⟩ := ht.head
  refine ⟨c, cs ++ tail, ?_, ?_⟩
  · rw [skipWhitespace_blank hgap]
    exact skipWhitespace_cons hspace _
  · rcases hclose with rfl | rfl
    · exact hbracket
    · exact hbrace

/-- A listing is read item by item. -/
theorem parseItems_listing (hp : SkipsBlanks item) (hclose : close = ']' ∨ close = '\x7d')
    (hgap : Blank gap) (hlast : Blank last) (h : List.Forall₂ (Printed item) ts os)
    (rest : Text) :
    (parseItems item close unexpected expected
      (listing gap ts ++ (last ++ close :: rest))).toOption =
      (os.mapM id).map fun vs => (vs, rest) := by
  cases h with
  | nil =>
      have hskip : skipWhitespace (last ++ close :: rest) = close :: rest := by
        rw [skipWhitespace_blank hlast]
        exact skipWhitespace_cons (by rcases hclose with rfl | rfl <;> decide) rest
      rw [listing, List.nil_append, parseItems, hskip]
      dsimp only
      rw [if_pos rfl]
      rfl
  | @cons t o ts os ht hts =>
      obtain ⟨c, cs, hskip, hc⟩ := head_listing hgap ht hclose
        (ts.flatMap (fun t => ',' :: (gap ++ t)) ++ (last ++ close :: rest))
      have hskip' : skipWhitespace (listing gap (t :: ts) ++ (last ++ close :: rest)) = c :: cs := by
        rw [listing, List.append_assoc, List.append_assoc]
        exact hskip
      rw [parseItems_eq_loop hp hskip' hc]
      exact itemsLoop_listing hp hclose hgap hlast (.cons ht hts) (by simp) le_rfl

/-- Blanks alone are an empty container. -/
theorem parseItems_blank (hq : Blank q) :
    parseItems item close unexpected expected q = .ok ([], []) := by
  rw [parseItems, skipWhitespace_all hq]
  rfl

/-- A listing that is cut off is refused. -/
theorem parseItems_front (hp : SkipsBlanks item) (hclose : close = ']' ∨ close = '\x7d')
    (hgap : Blank gap) (h : List.Forall₂ (Printed item) ts os) (hne : ts ≠ []) :
    (parseItems item close unexpected expected (front gap ts)).toOption =
      (os.mapM id).map fun vs => (vs, []) := by
  have hcomma : close ≠ ',' := by
    rcases hclose with rfl | rfl <;> decide
  cases h with
  | nil => exact absurd rfl hne
  | @cons t o ts os ht hts =>
      obtain ⟨c, cs, hskip, hc⟩ := head_listing hgap ht hclose (',' :: front gap ts)
      have heq : front gap (t :: ts) = gap ++ (t ++ ',' :: front gap ts) := by simp [front]
      rw [← heq] at hskip
      rw [parseItems_eq_loop hp hskip hc]
      exact itemsLoop_front hp hcomma hgap (.cons ht hts) le_rfl

/-- A container that is cut off behind its opening bracket is refused, unless the cut is in front
of the first item or behind a comma. -/
theorem parseItems_cut (hp : SkipsBlanks item) (hclose : close = ']' ∨ close = '\x7d')
    (hgap : Blank gap) (hlast : Blank last) (h : List.Forall₂ (Printed item) ts os)
    (hq : q <+: listing gap ts ++ (last ++ [close])) :
    q = listing gap ts ++ (last ++ [close]) ∨
      (parseItems item close unexpected expected q).toOption = none ∨ Blank q ∨
      ∃ k, 0 < k ∧ k < ts.length ∧ q = front gap (ts.take k) := by
  by_cases hblank : Blank q
  · exact .inr (.inr (.inl hblank))
  obtain ⟨c, cs, hskip⟩ : ∃ c cs, skipWhitespace q = c :: cs :=
    List.exists_cons_of_ne_nil fun hnil => hblank (List.dropWhile_eq_nil_iff.mp hnil)
  cases h with
  | nil =>
      rw [listing, List.nil_append] at hq
      rcases prefix_append_cases hq with hq | ⟨q', rfl, hq', hq⟩
      · exact absurd (hlast.cutOff hq) hblank
      · rcases List.prefix_cons_iff.mp hq with rfl | ⟨q'', rfl, hnone⟩
        · exact absurd rfl hq'
        · obtain rfl := List.prefix_nil.mp hnone
          exact .inl rfl
  | @cons t o ts os ht hts =>
      have hc : c ≠ close := by
        rw [listing, List.append_assoc, List.append_assoc] at hq
        rcases prefix_append_cases hq with hq | ⟨q', rfl, hq', hq⟩
        · exact absurd (hgap.cutOff hq) hblank
        · obtain ⟨d, ds, rfl, hspace, hbracket, hbrace⟩ := ht.head
          rcases List.prefix_cons_iff.mp hq with rfl | ⟨q'', rfl, hq''⟩
          · exact absurd rfl hq'
          · rw [skipWhitespace_blank hgap, skipWhitespace_cons hspace] at hskip
            obtain ⟨rfl, -⟩ := List.cons.inj hskip
            rcases hclose with rfl | rfl
            · exact hbracket
            · exact hbrace
      rw [parseItems_eq_loop hp hskip hc]
      rcases itemsLoop_cut hp hclose hgap hlast (.cons ht hts) (by simp) hq le_rfl with
        hfull | hnone | ⟨k, hk, hfront⟩
      · exact .inl hfull
      · exact .inr (.inl hnone)
      · refine .inr (.inr (.inr ⟨k, Nat.pos_of_ne_zero fun hzero => ?_, hk, hfront⟩))
        subst hzero
        exact hblank (hfront ▸ fun c hc => by cases hc)

/-- A container that is cut off is refused or read to the end. -/
theorem parseItems_stops (hp : SkipsBlanks item) (hclose : close = ']' ∨ close = '\x7d')
    (hgap : Blank gap) (hlast : Blank last) (h : List.Forall₂ (Printed item) ts os)
    (hq : q <+: listing gap ts ++ (last ++ [close])) {vs : List α}
    (hread : (parseItems item close unexpected expected q).toOption = some (vs, rest)) :
    rest = [] := by
  rcases parseItems_cut hp hclose hgap hlast h hq with
    rfl | hnone | hblank | ⟨k, hpos, hk, rfl⟩
  · rw [parseItems_listing hp hclose hgap hlast h []] at hread
    obtain ⟨vs', -, heq⟩ := Option.map_eq_some_iff.mp hread
    exact (congrArg Prod.snd heq).symm
  · rw [hnone] at hread
    cases hread
  · rw [parseItems_blank hblank] at hread
    cases hread
    rfl
  · have hne : ts.take k ≠ [] := List.ne_nil_of_length_pos (by rw [List.length_take]; omega)
    rw [parseItems_front hp hclose hgap (List.forall₂_take k h) hne] at hread
    obtain ⟨vs', -, heq⟩ := Option.map_eq_some_iff.mp hread
    exact (congrArg Prod.snd heq).symm

end Containers

end NanoVault.Json
