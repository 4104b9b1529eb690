import UtilityCss.Proofs.Sheet.Items
import UtilityCss.Sheet.Basic

/-!
# The items of written blocks

Blocks whose texts hold no brace and no semicolon, and whose properties hold no colon, are read back. From
the pretty layout they are read as the items that they stand for (`readItems?_pretty`). The minified layout
has semicolons only between the declarations of a block, so the last declaration before an inner block is
read as a part of the head of that block (`itemBehind`, `readItems?_minified`). The two readings are the same
if and only if no block holds declarations beside further blocks (`itemAllBehind_none_eq_iff`).

In the pretty layout a line break alone is gathered between lines. In the minified one it is nothing, or a
declaration that no semicolon ends, and the induction over the blocks is generalised over that declaration.
-/

namespace UtilityCss

/-! ## Items of blocks -/

/-- A text without braces and semicolons. -/
def Unmarked (s : String) : Prop := ∀ c ∈ s.toList, isSheetMark c = false

-- not by the instance for finite types, which would go through all characters
instance (s : String) : Decidable (Unmarked s) := List.decidableBAll _ s.toList

namespace Declaration

/-- A declaration that can be told apart from what stands around it. -/
structure IsPlain (d : Declaration) : Prop where
  property : Unmarked d.property
  value : Unmarked d.value
  colon : ':' ∉ d.property.toList

instance (d : Declaration) : Decidable d.IsPlain :=
  decidable_of_iff (Unmarked d.property ∧ Unmarked d.value ∧ ':' ∉ d.property.toList)
    ⟨fun ⟨hproperty, hvalue, hcolon⟩ => ⟨hproperty, hvalue, hcolon⟩,
      fun h => ⟨h.property, h.value, h.colon⟩⟩

def item (d : Declaration) : Item :=
  .declaration (Item.bare d.property.toList) (Item.bare d.value.toList)

/-- A declaration as it is written in the minified layout. -/
def text (d : Declaration) : List Char := d.property.toList ++ ':' :: d.value.toList

theorem IsPlain.ofText?_text {d : Declaration} (h : d.IsPlain) : Item.ofText? d.text = some [d.item] :=
  Item.ofText?_colon h.colon _

theorem IsPlain.text {d : Declaration} (h : d.IsPlain) : ∀ c ∈ d.text, isSheetMark c = false :=
  List.forall_mem_append.mpr ⟨h.property, List.forall_mem_cons.mpr ⟨rfl, h.value⟩⟩

end Declaration

namespace Block

mutual
/-- What a block stands for. -/
def item : Block → Item
  | .style selector decls => .block (Item.bare selector.toList) (decls.map Declaration.item)
  | .atRule name params decls inner =>
    .block (Item.bare (atHead name params).toList) (decls.map Declaration.item ++ itemAll inner)
def itemAll : List Block → List Item
  | [] => []
  | b :: bs => item b :: itemAll bs
end

/-- The text of a declaration that no semicolon ends. -/
def openText (d? : Option Declaration) : List Char := (d?.map Declaration.text).getD []

mutual
/-- What a block is read as in the minified layout, behind a declaration that no semicolon ends. -/
def itemBehind (d? : Option Declaration) : Block → Item
  | .style selector decls =>
    .block (Item.bare (openText d? ++ selector.toList)) (decls.map Declaration.item)
  | .atRule name params decls inner =>
    .block (Item.bare (openText d? ++ (atHead name params).toList))
      (decls.dropLast.map Declaration.item ++ itemAllBehind decls.getLast? inner)
/-- What blocks are read as, behind a declaration that is read by itself if there are no blocks. -/
def itemAllBehind (d? : Option Declaration) : List Block → List Item
  | [] => (d?.map Declaration.item).toList
  | b :: bs => itemBehind d? b :: itemAllBehind none bs
end

mutual
/-- Whether no block holds declarations beside further blocks. -/
def IsUnmixed : Block → Prop
  | .style _ _ => True
  | .atRule _ _ decls inner => (decls = [] ∨ inner = []) ∧ IsUnmixedAll inner
def IsUnmixedAll : List Block → Prop
  | [] => True
  | b :: bs => IsUnmixed b ∧ IsUnmixedAll bs
end

mutual
/-- Whether the texts of a block can be told apart from the marks around them. -/
def IsPlain : Block → Prop
  | .style selector decls => Unmarked selector ∧ ∀ d ∈ decls, d.IsPlain
  | .atRule name params decls inner =>
    Unmarked (atHead name params) ∧ (∀ d ∈ decls, d.IsPlain) ∧ IsPlainAll inner
def IsPlainAll : List Block → Prop
  | [] => True
  | b :: bs => IsPlain b ∧ IsPlainAll bs
end

theorem itemAll_eq_map (bs : List Block) : itemAll bs = bs.map item := by
  induction bs with
  | nil => rfl
  | cons b bs ih => rw [itemAll, ih, List.map_cons]

theorem length_itemAllBehind (d? : Option Declaration) (b : Block) (bs : List Block) :
    (itemAllBehind d? (b :: bs)).length = bs.length + 1 := by
  induction bs generalizing d? b with
  | nil => rfl
  | cons c bs ih => rw [itemAllBehind, List.length_cons, ih, List.length_cons]

theorem isPlainAll_iff {bs : List Block} : IsPlainAll bs ↔ ∀ b ∈ bs, b.IsPlain := by
  induction bs with
  | nil => simp [IsPlainAll]
  | cons b bs ih => simp [IsPlainAll, ih]

theorem isUnmixedAll_iff {bs : List Block} : IsUnmixedAll bs ↔ ∀ b ∈ bs, b.IsUnmixed := by
  induction bs with
  | nil => simp [IsUnmixedAll]
  | cons b bs ih => simp [IsUnmixedAll, ih]

mutual
theorem itemBehind_none_eq_iff : ∀ b : Block, itemBehind none b = b.item ↔ b.IsUnmixed
  | .style selector decls => by simp [itemBehind, item, IsUnmixed, openText]
  | .atRule name params decls inner => by
    have hinner := itemAllBehind_none_eq_iff inner
    have hhead : openText none ++ (atHead name params).toList = (atHead name params).toList := rfl
    rw [itemBehind, item, IsUnmixed, hhead, Item.block.injEq, eq_self, true_and]
    rcases List.eq_nil_or_concat decls with rfl | ⟨decls, d, rfl⟩
    · simpa using hinner
    · rw [List.concat_eq_append, List.dropLast_concat, List.getLast?_concat]
      cases inner with
      | nil => simp [itemAllBehind, itemAll, IsUnmixedAll]
      | cons b bs =>
        refine iff_of_false (fun heq => ?_) (by simp)
        -- one item is missing
        have hlength := congrArg List.length heq
        rw [List.length_append, List.length_append, length_itemAllBehind, itemAll_eq_map] at hlength
        simp at hlength
theorem itemAllBehind_none_eq_iff :
    ∀ bs : List Block, itemAllBehind none bs = itemAll bs ↔ IsUnmixedAll bs
  | [] => by simp [itemAllBehind, itemAll, IsUnmixedAll]
  | b :: bs => by
    rw [itemAllBehind, itemAll, List.cons.injEq, itemBehind_none_eq_iff b,
      itemAllBehind_none_eq_iff bs, IsUnmixedAll]
end

/-! ## The minified layout -/

theorem ofText?_openText {d? : Option Declaration} (h : ∀ d ∈ d?, d.IsPlain) :
    Item.ofText? (openText d?) = some (d?.map Declaration.item).toList := by
  cases d? with
  | none => rfl
  | some d => exact (h d rfl).ofText?_text

theorem reads_minified_declarations {decls : List Declaration} (h : ∀ d ∈ decls, d.IsPlain)
    (depth : Nat) :
    Reads [] (Layout.minified.declarations depth decls).toList
      (decls.dropLast.map Declaration.item) (openText decls.getLast?) := by
  have htexts : (Layout.minified.declarations depth decls).toList =
      [';'].intercalate (decls.map Declaration.text) := by
    simp [Layout.declarations, Function.comp_def]
    rfl
  rw [htexts]
  clear htexts
  induction decls with
  | nil => exact .nil
  | cons d decls ih =>
    have hd := h d (by simp)
    have hfirst : Reads [] d.text [] d.text := Reads.unmarked hd.text
    cases decls with
    | nil => simpa [openText] using hfirst
    | cons e decls =>
      have hrest := ih fun x hx => h x (by simp [hx])
      rw [List.map_cons, List.intercalate_cons_of_ne_nil (by simp)]
      exact (hfirst.append (Reads.semicolon hd.ofText?_text)).append hrest

theorem reads_minified_between {head : String} (hhead : Unmarked head) {p body q : List Char}
    {items last : List Item} (hbody : Reads [] body items q) (hq : Item.ofText? q = some last)
    (depth : Nat) :
    Reads p ((Layout.minified.openBlock depth head).toList ++ body ++
        (Layout.minified.closeBlock depth).toList)
      [.block (Item.bare (p ++ head.toList)) (items ++ last)] [] := by
  have htext : (Layout.minified.openBlock depth head).toList ++ body ++
      (Layout.minified.closeBlock depth).toList = head.toList ++ ('{' :: body ++ ['}']) := by
    simp [Layout.openBlock, Layout.closeBlock, Layout.indent]
  rw [htext]
  exact (Reads.unmarked hhead).append (Reads.block hbody hq)

theorem map_dropLast_append (decls : List Declaration) :
    decls.dropLast.map Declaration.item ++ (decls.getLast?.map Declaration.item).toList =
      decls.map Declaration.item := by
  rcases List.eq_nil_or_concat decls with rfl | ⟨decls, d, rfl⟩ <;> simp

mutual
theorem reads_minified : ∀ (b : Block) (depth : Nat) (d? : Option Declaration), b.IsPlain →
    Reads (openText d?) (text .minified depth b).toList [itemBehind d? b] []
  | .style selector decls, depth, d?, h => by
    have hdecls := reads_minified_declarations h.2 (depth + 1)
    have hlast : ∀ d ∈ decls.getLast?, d.IsPlain := fun d hd => h.2 d (List.mem_of_getLast? hd)
    have hblock := reads_minified_between (p := openText d?) h.1 hdecls (ofText?_openText hlast) depth
    rw [map_dropLast_append] at hblock
    rw [text, itemBehind, String.toList_append, String.toList_append]
    exact hblock
  | .atRule name params decls inner, depth, d?, h => by
    have hdecls := reads_minified_declarations h.2.1 (depth + 1)
    have hlast : ∀ d ∈ decls.getLast?, d.IsPlain := fun d hd => h.2.1 d (List.mem_of_getLast? hd)
    obtain ⟨items, q, last, hinner, hq, hitems⟩ :=
      reads_minifiedAll inner (depth + 1) decls.getLast? h.2.2 hlast
    have hblock := reads_minified_between (p := openText d?) h.1 (hdecls.append hinner) hq depth
    have happend : decls.dropLast.map Declaration.item ++ items ++ last =
        decls.dropLast.map Declaration.item ++ itemAllBehind decls.getLast? inner := by
      rw [List.append_assoc, hitems]
    rw [happend] at hblock
    rw [itemBehind]
    simpa only [text, String.toList_append, List.append_assoc] using hblock
theorem reads_minifiedAll : ∀ (bs : List Block) (depth : Nat) (d? : Option Declaration),
    IsPlainAll bs → (∀ d ∈ d?, d.IsPlain) →
    ∃ items q last, Reads (openText d?) (textAll .minified depth bs).toList items q ∧
      Item.ofText? q = some last ∧ items ++ last = itemAllBehind d? bs
  | [], depth, d?, _, hd => ⟨[], _, _, .nil, ofText?_openText hd, rfl⟩
  | b :: bs, depth, d?, h, _ => by
    have hb := reads_minified b depth d? h.1
    obtain ⟨items, q, last, hbs, hq, hitems⟩ := reads_minifiedAll bs depth none h.2 (by simp)
    refine ⟨itemBehind d? b :: items, q, last, ?_, hq, ?_⟩
    · rw [textAll, String.toList_append]
      exact hb.append hbs
    · rw [List.cons_append, hitems, itemAllBehind]
end

/-! ## The pretty layout -/

theorem isBlank_of_mem_indent (depth : Nat) :
    ∀ c ∈ (Layout.pretty.indent depth).toList, Text.isBlank c = true := by
  intro c hc
  simp only [Layout.indent, String.toList_ofList] at hc
  obtain rfl := List.eq_of_mem_replicate hc
  decide

theorem isSheetMark_of_isBlank {c : Char} (h : Text.isBlank c = true) : isSheetMark c = false := by
  have hne : ∀ d, Text.isBlank d = false → c ≠ d := by
    rintro d hd rfl
    rw [h] at hd
    cases hd
  simp [isSheetMark, hne '{' (by decide), hne '}' (by decide), hne ';' (by decide)]

theorem reads_blanks {p l : List Char} (hl : ∀ c ∈ l, Text.isBlank c = true) :
    Reads p l [] (p ++ l) :=
  Reads.unmarked fun c hc => isSheetMark_of_isBlank (hl c hc)

theorem isBlank_lineBreak : ∀ c ∈ ['\n'], Text.isBlank c = true := List.forall_mem_singleton.mpr rfl

theorem isBlank_space : ∀ c ∈ [' '], Text.isBlank c = true := List.forall_mem_singleton.mpr rfl

theorem ofText?_blanks_append {d : Declaration} (h : d.IsPlain) {l : List Char}
    (hl : ∀ c ∈ l, Text.isBlank c = true) :
    Item.ofText? (l ++ d.property.toList ++ ':' :: ' ' :: d.value.toList) = some [d.item] := by
  have hcolon : ':' ∉ l ++ d.property.toList := by
    intro hmem
    rcases List.mem_append.mp hmem with hmem | hmem
    · exact absurd (hl _ hmem) (by decide)
    · exact h.colon hmem
  have hvalue : Item.bare (' ' :: d.value.toList) = Item.bare d.value.toList :=
    Item.bare_blanks_append isBlank_space _
  rw [Item.ofText?_colon hcolon, Item.bare_blanks_append hl, hvalue]
  rfl

theorem reads_pretty_declaration {d : Declaration} (h : d.IsPlain) (depth : Nat) :
    Reads ['\n'] (Layout.pretty.indent depth ++ d.property ++ ": " ++ d.value ++ ";\n").toList
      [d.item] ['\n'] := by
  have hindent := isBlank_of_mem_indent depth
  generalize Layout.pretty.indent depth = indent at hindent ⊢
  have htext : (indent ++ d.property ++ ": " ++ d.value ++ ";\n").toList =
      (indent.toList ++ d.property.toList ++ ':' :: ' ' :: d.value.toList) ++ [';'] ++ ['\n'] := by
    simp
  have hrest : ∀ c ∈ ':' :: ' ' :: d.value.toList, isSheetMark c = false :=
    List.forall_mem_cons.mpr ⟨rfl, List.forall_mem_cons.mpr ⟨rfl, h.value⟩⟩
  have hblank : ∀ c ∈ '\n' :: indent.toList, Text.isBlank c = true :=
    List.forall_mem_cons.mpr ⟨rfl, hindent⟩
  have hgathered : Reads ['\n'] _ [] _ :=
    ((reads_blanks hindent).append (Reads.unmarked h.property)).append (Reads.unmarked hrest)
  have hitem := Reads.semicolon (ofText?_blanks_append h hblank)
  rw [htext]
  exact (hgathered.append hitem).append (reads_blanks isBlank_lineBreak)

theorem reads_pretty_declarations {decls : List Declaration} (h : ∀ d ∈ decls, d.IsPlain)
    (depth : Nat) :
    Reads ['\n'] (Layout.pretty.declarations depth decls).toList (decls.map Declaration.item)
      ['\n'] := by
  rw [Layout.declarations]
  induction decls with
  | nil => exact .nil
  | cons d decls ih =>
    have hd := reads_pretty_declaration (h d (by simp)) depth
    rw [List.map_cons, String.join_cons, String.toList_append]
    exact hd.append (ih fun x hx => h x (by simp [hx]))

theorem reads_pretty_between {head : String} (hhead : Unmarked head) {p body : List Char}
    {items : List Item} (hp : ∀ c ∈ p, Text.isBlank c = true)
    (hbody : Reads ['\n'] body items ['\n']) (depth : Nat) :
    Reads p ((Layout.pretty.openBlock depth head).toList ++ body ++
        (Layout.pretty.closeBlock depth).toList)
      [.block (Item.bare head.toList) items] ['\n'] := by
  have hindent := isBlank_of_mem_indent depth
  have htext : (Layout.pretty.openBlock depth head).toList ++ body ++
      (Layout.pretty.closeBlock depth).toList =
        (((Layout.pretty.indent depth).toList ++ head.toList) ++ [' ']) ++
          ('{' :: (['\n'] ++ body ++ (Layout.pretty.indent depth).toList) ++ ['}']) ++ ['\n'] := by
    simp [Layout.openBlock, Layout.closeBlock]
  rw [htext]
  generalize (Layout.pretty.indent depth).toList = indent at hindent ⊢
  have hblank : ∀ c ∈ '\n' :: indent, Text.isBlank c = true :=
    List.forall_mem_cons.mpr ⟨rfl, hindent⟩
  have hbare : Item.bare (p ++ indent ++ head.toList ++ [' ']) = Item.bare head.toList := by
    rw [Item.bare_append_blanks _ isBlank_space, List.append_assoc, Item.bare_blanks_append hp,
      Item.bare_blanks_append hindent]
  have hgathered : Reads p _ [] (p ++ indent ++ head.toList ++ [' ']) :=
    ((reads_blanks hindent).append (Reads.unmarked hhead)).append (reads_blanks isBlank_space)
  have hline : Reads [] ['\n'] [] ['\n'] := reads_blanks isBlank_lineBreak
  have hclose : Reads ['\n'] indent [] ('\n' :: indent) := reads_blanks hindent
  have hblock := Reads.block (p := p ++ indent ++ head.toList ++ [' '])
    ((hline.append hbody).append hclose) (Item.ofText?_blanks hblank)
  rw [hbare, List.append_nil, List.append_nil, List.nil_append] at hblock
  exact (hgathered.append hblock).append hline

mutual
theorem reads_pretty : ∀ (b : Block) (depth : Nat) {p : List Char}, b.IsPlain →
    (∀ c ∈ p, Text.isBlank c = true) → Reads p (text .pretty depth b).toList [b.item] ['\n']
  | .style selector decls, depth, p, h, hp => by
    have hdecls := reads_pretty_declarations h.2 (depth + 1)
    rw [text, item, String.toList_append, String.toList_append]
    exact reads_pretty_between h.1 hp hdecls depth
  | .atRule name params decls inner, depth, p, h, hp => by
    have hdecls := reads_pretty_declarations h.2.1 (depth + 1)
    have hinner := reads_prettyAll inner (depth + 1) h.2.2
    have hblock := reads_pretty_between h.1 hp (hdecls.append hinner) depth
    rw [item]
    simpa only [text, String.toList_append, List.append_assoc] using hblock
theorem reads_prettyAll : ∀ (bs : List Block) (depth : Nat), IsPlainAll bs →
    Reads ['\n'] (textAll .pretty depth bs).toList (itemAll bs) ['\n']
  | [], _, _ => .nil
  | b :: bs, depth, h => by
    have hb := reads_pretty b depth (p := ['\n']) h.1 isBlank_lineBreak
    rw [textAll, String.toList_append]
    exact hb.append (reads_prettyAll bs depth h.2)
end

/-! ## Whole texts -/

theorem intercalate_text_minified (bs : List Block) :
    Layout.minified.separator.intercalate (bs.map (text .minified 0)) = textAll .minified 0 bs := by
  rw [← String.toList_inj, String.toList_intercalate, List.map_map]
  show [].intercalate _ = _
  induction bs with
  | nil => rfl
  | cons b bs ih =>
    rw [textAll, String.toList_append, ← ih]
    cases bs with
    | nil => simp
    | cons c bs => simp

theorem readItems?_minified {bs : List Block} (h : IsPlainAll bs) :
    readItems? (Layout.minified.separator.intercalate (bs.map (text .minified 0))) =
      some (itemAllBehind none bs) := by
  obtain ⟨items, q, last, hreads, hq, hitems⟩ := reads_minifiedAll bs 0 none h (by simp)
  rw [intercalate_text_minified, Reads.readItems? hreads hq, hitems]

theorem reads_pretty_top {bs : List Block} (h : IsPlainAll bs) {p : List Char}
    (hp : ∀ c ∈ p, Text.isBlank c = true) : ∃ q, (∀ c ∈ q, Text.isBlank c = true) ∧
      Reads p (['\n'].intercalate (bs.map fun b => (text .pretty 0 b).toList)) (itemAll bs) q := by
  induction bs generalizing p with
  | nil => exact ⟨p, hp, .nil⟩
  | cons b bs ih =>
    have hb := reads_pretty b 0 h.1 hp
    cases bs with
    | nil => exact ⟨['\n'], isBlank_lineBreak, by simpa [itemAll] using hb⟩
    | cons c bs =>
      have hblank : ∀ c ∈ ['\n'] ++ ['\n'], Text.isBlank c = true :=
        List.forall_mem_append.mpr ⟨isBlank_lineBreak, isBlank_lineBreak⟩
      obtain ⟨q, hq, hrest⟩ := ih h.2 hblank
      refine ⟨q, hq, ?_⟩
      rw [List.map_cons, List.intercalate_cons_of_ne_nil (by simp)]
      exact (hb.append (reads_blanks isBlank_lineBreak)).append hrest

theorem readItems?_pretty {bs : List Block} (h : IsPlainAll bs) :
    readItems? (Layout.pretty.separator.intercalate (bs.map (text .pretty 0))) =
      some (itemAll bs) := by
  obtain ⟨q, hq, hreads⟩ := reads_pretty_top h (p := []) (by simp)
  have htext : (Layout.pretty.separator.intercalate (bs.map (text .pretty 0))).toList =
      ['\n'].intercalate (bs.map fun b => (text .pretty 0 b).toList) := by
    rw [String.toList_intercalate, List.map_map]
    rfl
  rw [← htext] at hreads
  rw [Reads.readItems? hreads (Item.ofText?_blanks hq), List.append_nil]

end Block
end UtilityCss
