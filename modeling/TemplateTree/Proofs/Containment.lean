import TemplateTree.Proofs.Grammar.StatementGaps
import TemplateTree.Proofs.Parse
import TemplateTree.Proofs.Tree.Delimiters

/-!
# Broken tags are contained

However broken the inside of a tag is, the tag ends with its closing delimiter, and the
rest of the template is read as if nothing were wrong. Two templates that differ
only between the delimiters of one tag are read into trees that differ only in that tag.
Whatever is skipped in a broken tag, it is neither an opening delimiter nor content: these
are found in the tree where they belong.
-/

namespace TemplateTree

open Rose Grammar

/-- The tree of a tag that starts with the delimiter, has the given kinds in it and ends
with a closing delimiter. -/
def IsTag (opening : Kind) (inside : List Kind) (r : Rose Kind) : Prop :=
  ∃ f, r = .node (.plain (tagKind opening)) (Derivation.leaf opening :: f) ∧
    leavesAll f = inside ++ [.close]

namespace Parse

/-- What may stand between the delimiters of a tag without ending it: neither a closing
delimiter nor a kind at which recovery stops, and something at all if the tag would
be an else tag otherwise. -/
structure Fills (opening : Kind) (inside : List Kind) : Prop where
  close : .close ∉ inside
  recovery : ∀ k ∈ inside, k ∉ KindSet.syncPoints
  inverse : opening = .openInverse → inside ≠ []

/-- Two ways to fill a tag, as a gap. -/
theorem exists_readsTags {opening : Kind} {inside inside' : List Kind}
    (hopening : opensTag opening = true) (h : Fills opening inside) (h' : Fills opening inside') :
    ∃ tag tag', IsTag opening inside tag ∧ IsTag opening inside' tag' ∧
      ReadsTags ⟨opening, fun b => cond b inside inside' ++ [Kind.close], fun b => cond b tag tag'⟩
        KindSet.syncPoints := by
  have hreads : ∀ {inside}, Fills opening inside → ∃ tag, IsTag opening inside tag ∧ ∀ later,
      (tagAt opening).outcome KindSet.syncPoints (opening :: (inside ++ .close :: later)) =
        ⟨true, later, [tag]⟩ := by
    intro inside h
    obtain ⟨f, hf, hread⟩ := tagAt_reads (R := KindSet.syncPoints) (k := opening) h.close
      fun k hk => Bool.eq_false_iff.mpr (h.recovery k hk)
    exact ⟨_, ⟨f, rfl, hf⟩, hread⟩
  have hproper : ∀ {inside}, Fills opening inside → opening = .openInverse → ∀ later,
      (inside ++ [Kind.close] ++ later).headD .endOfInput ≠ .close := by
    intro inside h hinverse later
    obtain ⟨k, ks, rfl⟩ := List.exists_cons_of_ne_nil (h.inverse hinverse)
    rintro rfl
    exact h.close List.mem_cons_self
  obtain ⟨tag, htag, hread⟩ := hreads h
  obtain ⟨tag', htag', hread'⟩ := hreads h'
  refine ⟨tag, tag', htag, htag', hopening, ?_, ?_, ?_⟩
  · rw [contains_syncPoints, isSync, hopening, Bool.true_or]
  · intro b later
    cases b with
    | false => simpa using hread' later
    | true => simpa using hread later
  · intro hinverse b later
    cases b with
    | false => exact hproper h' hinverse later
    | true => exact hproper h hinverse later

/-- A broken tag does not disturb what is around it: if two templates differ only in what
stands between the delimiters of one tag, then without the blank tokens their trees
differ only in that tag. With a placeholder for the tag, which stands behind the
same tokens in both, they are the same. -/
theorem ofStream_contains_broken_tag {text text' : String} {tokens tokens' : List Token}
    {stream stream' : TokenStream} {root opening : Kind} {before inside inside' behind : List Kind}
    (haccepted : TokenStream.ofTokens text tokens = .ok stream)
    (haccepted' : TokenStream.ofTokens text' tokens' = .ok stream') (hroot : isRoot root = true)
    (hopening : opensTag opening = true) (hinside : Fills opening inside)
    (hinside' : Fills opening inside')
    (hkinds : stream.kinds = before ++ [opening] ++ inside ++ [.close] ++ behind)
    (hkinds' : stream'.kinds = before ++ [opening] ++ inside' ++ [.close] ++ behind) :
    ∃ parse parse' tag tag' rest, ofStream stream root .standard = .ok parse ∧
      ofStream stream' root .standard = .ok parse' ∧
      IsTag opening inside tag ∧ IsTag opening inside' tag' ∧
      leavesAll rest = before.map some ++ [none] ++ behind.map some ∧
      parse.tree.shape.significant = plantAll tag rest ∧
      parse'.tree.shape.significant = plantAll tag' rest := by
  obtain ⟨tag, tag', htag, htag', hreads⟩ := exists_readsTags hopening hinside hinside'
  obtain ⟨_, m, rest, hrest, hblind⟩ :=
    template_blind hreads root (before.map some ++ [none] ++ behind.map some)
  have hfilled : ∀ b, Gap.kinds ⟨opening, fun b => cond b inside inside' ++ [Kind.close],
      fun b => cond b tag tag'⟩ b (before.map some ++ [none] ++ behind.map some) =
        before ++ [opening] ++ cond b inside inside' ++ [.close] ++ behind := by
    intro b
    simp [Gap.kinds]
  obtain ⟨f, houtcome, -, hleaves, hparse⟩ := exists_ofStream_eq .standard haccepted hroot
  obtain ⟨f', houtcome', -, hleaves', hparse'⟩ := exists_ofStream_eq .standard haccepted' hroot
  have hplanted := hblind true
  have hplanted' := hblind false
  rw [hfilled] at hplanted hplanted'
  rw [hkinds] at houtcome
  rw [hkinds'] at houtcome'
  have hsame := hplanted.symm.trans houtcome
  have hsame' := hplanted'.symm.trans houtcome'
  simp only [Outcome.mk.injEq] at hsame hsame'
  obtain rfl : m = [] := by
    have hle := Gap.length_le_length_kinds
      ⟨opening, fun b => cond b inside inside' ++ [Kind.close], fun b => cond b tag tag'⟩ true m
    rw [hsame.2.1] at hle
    exact List.length_eq_zero_iff.mp (Nat.le_zero.mp hle)
  rw [List.append_nil] at hrest
  refine ⟨_, _, tag, tag', rest, hparse, hparse', htag, htag', hrest, ?_, ?_⟩
  · rw [significant_ofForest hleaves]
    exact hsame.2.2.symm
  · rw [significant_ofForest hleaves']
    exact hsame'.2.2.symm

theorem ofStream_contains_broken_tag_mustache :
    ∃ stream stream' parse parse' tag tag' rest,
      TokenStream.ofTokens "\x7b\x7ba b=\x7d\x7dx"
        [⟨.openValue, 2⟩, ⟨.ident, 1⟩, ⟨.blank, 1⟩, ⟨.ident, 1⟩, ⟨.equals, 1⟩, ⟨.close, 2⟩,
          ⟨.content, 1⟩] = .ok stream ∧
      TokenStream.ofTokens "\x7b\x7b=#\x7d\x7dy"
        [⟨.openValue, 2⟩, ⟨.equals, 1⟩, ⟨.invalid, 1⟩, ⟨.close, 2⟩, ⟨.content, 1⟩] = .ok stream' ∧
      ofStream stream .template .standard = .ok parse ∧
      ofStream stream' .template .standard = .ok parse' ∧
      IsTag .openValue [.ident, .ident, .equals] tag ∧ IsTag .openValue [.equals, .invalid] tag' ∧
      leavesAll rest = [none, some .content] ∧
      parse.tree.shape.significant = plantAll tag rest ∧
      parse'.tree.shape.significant = plantAll tag' rest := by
  let stream : TokenStream := ⟨"\x7b\x7ba b=\x7d\x7dx",
    #[⟨.openValue, 2⟩, ⟨.ident, 1⟩, ⟨.blank, 1⟩, ⟨.ident, 1⟩, ⟨.equals, 1⟩, ⟨.close, 2⟩,
      ⟨.content, 1⟩], #[0, 1, 3, 4, 5, 6], by decide⟩
  let stream' : TokenStream := ⟨"\x7b\x7b=#\x7d\x7dy",
    #[⟨.openValue, 2⟩, ⟨.equals, 1⟩, ⟨.invalid, 1⟩, ⟨.close, 2⟩, ⟨.content, 1⟩], #[0, 1, 2, 3, 4],
    by decide⟩
  have haccepted : TokenStream.ofTokens "\x7b\x7ba b=\x7d\x7dx"
      [⟨.openValue, 2⟩, ⟨.ident, 1⟩, ⟨.blank, 1⟩, ⟨.ident, 1⟩, ⟨.equals, 1⟩, ⟨.close, 2⟩,
        ⟨.content, 1⟩] = .ok stream := rfl
  have haccepted' : TokenStream.ofTokens "\x7b\x7b=#\x7d\x7dy"
      [⟨.openValue, 2⟩, ⟨.equals, 1⟩, ⟨.invalid, 1⟩, ⟨.close, 2⟩, ⟨.content, 1⟩] = .ok stream' := rfl
  have hfills : Fills .openValue [.ident, .ident, .equals] := ⟨by decide, by decide, by simp⟩
  have hfills' : Fills .openValue [.equals, .invalid] := ⟨by decide, by decide, by simp⟩
  obtain ⟨parse, parse', tag, tag', rest, h⟩ := ofStream_contains_broken_tag haccepted haccepted'
    (show isRoot .template = true from rfl) rfl hfills hfills'
    (show stream.kinds = [] ++ [.openValue] ++ [.ident, .ident, .equals] ++ [.close] ++ [.content]
      by decide)
    (by decide)
  exact ⟨stream, stream', parse, parse', tag, tag', rest, haccepted, haccepted', h⟩

/-- Recovery that stops at every opening delimiter and at content takes none of them away:
each delimiter starts a tag of its own, and each piece of content is a child of a sequence
of statements. Only the delimiter of an else tag may be an error of its own, and
only in front of a closing delimiter. -/
theorem ofStream_keeps_delimiters {text : String} {tokens : List Token} {stream : TokenStream}
    {root : Kind} (options : Options) (haccepted : TokenStream.ofTokens text tokens = .ok stream)
    (hroot : isRoot root = true) (hrecovery : ∀ k ∈ KindSet.syncPoints, k ∈ options.recovery) :
    ∃ parse, ofStream stream root options = .ok parse ∧ parse.tree.tokenList = tokens ∧
      ∀ i < parse.tree.tokens.size, parse.tree.InPlace i := by
  have hsync : ∀ k, isSync k = true → options.recovery.contains k = true := by
    intro k hk
    rw [← contains_syncPoints] at hk
    exact hrecovery k hk
  obtain ⟨f, houtcome, -, hleaves, hparse⟩ := exists_ofStream_eq options haccepted hroot
  obtain ⟨f', hforest, horders⟩ := Script.ensures_iff.mp (template_orders hsync root stream.kinds)
  rw [houtcome] at hforest
  obtain rfl : f = f' := by simpa using hforest
  refine ⟨_, hparse, ?_, Tree.inPlace_layRoot hleaves horders⟩
  exact (Tree.tokenList_arena text _ _).trans (leaves_layRoot (.plain root) f tokens)

theorem ofStream_keeps_delimiters_stray :
    ∃ stream parse, TokenStream.ofTokens "\x7b\x7b^ \x7d\x7dx\x7b\x7ba\x7b\x7b#"
        [⟨.openInverse, 3⟩, ⟨.blank, 1⟩, ⟨.close, 2⟩, ⟨.content, 1⟩, ⟨.openValue, 2⟩, ⟨.ident, 1⟩,
          ⟨.openBlock, 3⟩] = .ok stream ∧
      ofStream stream .template .standard = .ok parse ∧
      parse.tree.tokenList = [⟨.openInverse, 3⟩, ⟨.blank, 1⟩, ⟨.close, 2⟩, ⟨.content, 1⟩,
        ⟨.openValue, 2⟩, ⟨.ident, 1⟩, ⟨.openBlock, 3⟩] ∧
      ∀ i < parse.tree.tokens.size, parse.tree.InPlace i := by
  have haccepted : TokenStream.ofTokens "\x7b\x7b^ \x7d\x7dx\x7b\x7ba\x7b\x7b#"
      [⟨.openInverse, 3⟩, ⟨.blank, 1⟩, ⟨.close, 2⟩, ⟨.content, 1⟩, ⟨.openValue, 2⟩, ⟨.ident, 1⟩,
        ⟨.openBlock, 3⟩] = .ok _ := rfl
  obtain ⟨parse, h⟩ := ofStream_keeps_delimiters .standard haccepted
    (show isRoot .template = true from rfl) fun _ hk => hk
  exact ⟨_, parse, haccepted, h⟩

end Parse

end TemplateTree
