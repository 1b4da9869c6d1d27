import MettaSchema.Grammar.SyntaxError
import MettaSchema.Proofs.Grammar.Reading

/-!
# Sites

Which rules may stand where: methods only in services, values only in enums, fields only in
messages.  Rules that declare nothing may stand anywhere, and nothing is declared inside them.

* `Site`, `Rule.site` — the sites, and the one that the parts of a rule have.
* `Tree.Fits`, `Phrase.Fits` — every rule in a tree, or in a phrase, is at a site where it may
  stand.
* `Proto.Reads.fits` — so are those in the trees that are read.
* `Proto.reads_of_parse` — an accepted file is read to its end.
* `Proto.parse_file_eq_node`, `Proto.parse_file_fits` — a file is one tree, and the rules in it are
  where they may stand.
-/

namespace MettaSchema

/-- Where rules may stand. -/
inductive Site where
  /-- At the top. -/
  | top
  /-- Among the statements of a file. -/
  | file
  /-- Among the statements of a message body. -/
  | message
  /-- Among the statements of an enum. -/
  | enum
  /-- Among the statements of a service. -/
  | service
  /-- Inside a statement in which nothing is declared. -/
  | detail
  deriving DecidableEq, Repr

/-- The rules that may stand at one site only or at some sites only. -/
def Site.rules : Site → List Rule
  | top => [.proto]
  | file => [.messageDef, .enumDef, .serviceDef, .extendDef]
  | message =>
    [.messageBody, .field, .mapField, .groupField, .oneofDef, .messageDef, .enumDef, .extendDef]
  | enum => [.enumValue]
  | service => [.rpc]
  | detail => []

/-- The site of the parts of a rule. -/
def Rule.site : Rule → Site
  | proto => .file
  | messageDef | messageBody | groupField | oneofDef | extendDef => .message
  | enumDef => .enum
  | serviceDef => .service
  | _ => .detail

/-- All sites. -/
def Site.all : List Site :=
  [top, file, message, enum, service, detail]

/-- The rule may stand at the site: it is one of the rules of the site, or of no site. -/
def Site.Allows (site : Site) (rule : Rule) : Prop :=
  rule ∈ site.rules ∨ rule ∉ all.flatMap rules

instance (site : Site) (rule : Rule) : Decidable (site.Allows rule) :=
  inferInstanceAs (Decidable (_ ∨ _))

/-! ## Trees -/

namespace Tree

mutual

/-- Every rule in a tree at the given site is at a site where it may stand. -/
def Fits (site : Site) : Tree → Prop
  | node rule parts => site.Allows rule ∧ FitsAll rule.site parts
  | _ => True

/-- Every rule in trees at the given site is at a site where it may stand. -/
def FitsAll (site : Site) : List Tree → Prop
  | [] => True
  | t :: rest => t.Fits site ∧ FitsAll site rest

end

theorem fitsAll_append {site : Site} {ts us : List Tree} :
    FitsAll site (ts ++ us) ↔ FitsAll site ts ∧ FitsAll site us := by
  induction ts with
  | nil => simp [FitsAll]
  | cons t ts ih => simp [FitsAll, ih, and_assoc]

theorem fitsAll_iff {site : Site} {ts : List Tree} :
    FitsAll site ts ↔ ∀ t ∈ ts, t.Fits site := by
  induction ts with
  | nil => simp [FitsAll]
  | cons t ts ih => simp [FitsAll, ih]

theorem fitsAll_ofBlanks (site : Site) (s : List Char) : FitsAll site (ofBlanks s) := by
  cases s with
  | nil => trivial
  | cons c s => exact ⟨trivial, trivial⟩

end Tree

/-! ## Phrases -/

/-- Every rule in a phrase at the given site is at a site where it may stand. -/
def Phrase.Fits (site : Site) : Phrase → Prop
  | node rule p => site.Allows rule ∧ p.Fits rule.site
  | seq p q => p.Fits site ∧ q.Fits site
  | alt p q => p.Fits site ∧ q.Fits site
  | opt p => p.Fits site
  | star p => p.Fits site
  | body => site = .message
  | _ => True

instance Phrase.decidableFits : (site : Site) → (p : Phrase) → Decidable (p.Fits site)
  | _, nothing => inferInstanceAs (Decidable True)
  | _, mark _ => inferInstanceAs (Decidable True)
  | _, token _ _ => inferInstanceAs (Decidable True)
  | _, node rule p =>
    have := decidableFits rule.site p
    inferInstanceAs (Decidable (_ ∧ _))
  | site, seq p q | site, alt p q =>
    have := decidableFits site p
    have := decidableFits site q
    inferInstanceAs (Decidable (_ ∧ _))
  | site, opt p | site, star p => decidableFits site p
  | site, body => inferInstanceAs (Decidable (site = .message))

namespace Proto

theorem fits_messageBody : messageBody.Fits .message := by decide

theorem fits_file : file.Fits .top := by decide

/-- The rules in the trees that are read are where the grammar has them. -/
theorem Reads.fits {further : Bool} {p : Phrase} {s : List Char}
    {o : Option (List Tree × List Char)} (h : Reads further p s o) {site : Site}
    (hp : p.Fits site) : ∀ trees r, o = some (trees, r) → Tree.FitsAll site trees := by
  induction h generalizing site with
  | nothing s =>
    rintro trees r ⟨⟩
    trivial
  | mark_some hs | token_some hs =>
    rintro trees r ⟨⟩
    exact ⟨trivial, trivial⟩
  | node_some _ ih =>
    rintro trees r ⟨⟩
    exact ⟨⟨hp.1, ih hp.2 _ _ rfl⟩, trivial⟩
  | seq_both _ _ ih₁ ih₂ =>
    rintro trees r ⟨⟩
    simp only [Tree.fitsAll_append, Tree.fitsAll_ofBlanks, ih₁ hp.1 _ _ rfl, ih₂ hp.2 _ _ rfl,
      and_self]
  | alt_first _ ih => exact ih hp.1
  | alt_second _ _ _ ih => exact ih hp.2
  | opt_some _ ih => exact ih hp
  | opt_none | star_none | more_none =>
    rintro trees r ⟨⟩
    trivial
  | star_some _ _ ih₁ ih₂ =>
    rintro trees r ⟨⟩
    exact Tree.fitsAll_append.2 ⟨ih₁ hp _ _ rfl, ih₂ hp _ _ rfl⟩
  | body _ ih =>
    have hsite : site = .message := hp
    subst hsite
    exact ih fits_messageBody
  | more_some _ _ ih₁ ih₂ =>
    rintro trees r ⟨⟩
    simp only [Tree.fitsAll_append, Tree.fitsAll_ofBlanks, ih₁ hp _ _ rfl, ih₂ hp _ _ rfl,
      and_self]
  | _ => rintro trees r ⟨⟩

/-- Nothing is left behind a file. -/
theorem Reads.file_rest {s r : List Char} {trees : List Tree}
    (h : Reads false file s (some (trees, r))) : r = [] := by
  cases h with | node_some h =>
  cases h with | seq_both _ h =>
  cases h with | seq_both _ h =>
  cases h with | seq_both _ h =>
  cases h with | token_some h =>
  unfold Scan.endOfInput at h
  split at h <;> cases h
  rfl

/-- An accepted file is read to its end. -/
theorem reads_of_parse {source : List Char} {trees : List Tree}
    (h : parse file source = .ok trees) : Reads false file source (some (trees, [])) := by
  unfold parse at h
  split at h
  · rename_i ts r hread
    cases h
    have hreads := (read_eq_iff sound_file).1 hread
    obtain rfl := hreads.file_rest
    exact hreads
  · cases h

/-- A file is read as one tree. -/
theorem parse_file_eq_node {source : List Char} {trees : List Tree}
    (h : parse file source = .ok trees) : ∃ parts, trees = [.node .proto parts] := by
  cases reads_of_parse h
  exact ⟨_, rfl⟩

/-- The rules in the trees of a file are where the grammar has them. -/
theorem parse_file_fits {source : List Char} {trees : List Tree}
    (h : parse file source = .ok trees) : Tree.FitsAll .top trees :=
  (reads_of_parse h).fits fits_file _ _ rfl

end Proto

end MettaSchema
