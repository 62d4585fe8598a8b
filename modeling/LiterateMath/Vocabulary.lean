/-! The fixed vocabularies of the notation: what a backslash command can stand for, and the
number sets a function may go from and to. Every member has one spelling, which is also the
way it is printed. -/
namespace LiterateMath

inductive GreekLetter where
  | alpha | beta | gamma | delta | epsilon | zeta | eta | theta | iota | kappa | lambda | mu | nu
  | xi | pi | rho | sigma | tau | upsilon | phi | chi | psi | omega
  | varEpsilon | varTheta | varRho | varSigma | varPhi
  | upperGamma | upperDelta | upperTheta | upperLambda | upperXi | upperPi | upperSigma
  | upperUpsilon | upperPhi | upperPsi | upperOmega
  deriving DecidableEq, Repr

namespace GreekLetter

def all : List GreekLetter :=
  [alpha, beta, gamma, delta, epsilon, zeta, eta, theta, iota, kappa, lambda, mu, nu,
   xi, pi, rho, sigma, tau, upsilon, phi, chi, psi, omega,
   varEpsilon, varTheta, varRho, varSigma, varPhi,
   upperGamma, upperDelta, upperTheta, upperLambda, upperXi, upperPi, upperSigma,
   upperUpsilon, upperPhi, upperPsi, upperOmega]

def spelling : GreekLetter → String
  | alpha => "alpha" | beta => "beta" | gamma => "gamma" | delta => "delta"
  | epsilon => "epsilon" | zeta => "zeta" | eta => "eta" | theta => "theta" | iota => "iota"
  | kappa => "kappa" | lambda => "lambda" | mu => "mu" | nu => "nu" | xi => "xi" | pi => "pi"
  | rho => "rho" | sigma => "sigma" | tau => "tau" | upsilon => "upsilon" | phi => "phi"
  | chi => "chi" | psi => "psi" | omega => "omega"
  | varEpsilon => "varepsilon" | varTheta => "vartheta" | varRho => "varrho"
  | varSigma => "varsigma" | varPhi => "varphi"
  | upperGamma => "Gamma" | upperDelta => "Delta" | upperTheta => "Theta"
  | upperLambda => "Lambda" | upperXi => "Xi" | upperPi => "Pi" | upperSigma => "Sigma"
  | upperUpsilon => "Upsilon" | upperPhi => "Phi" | upperPsi => "Psi" | upperOmega => "Omega"

def text (l : GreekLetter) : String := "\\" ++ l.spelling

end GreekLetter

inductive BinaryOperator where
  | addition | subtraction | multiplication | division | exponent
  | plusMinus | setDifference | conjunction | disjunction | exclusiveOr
  | externalProduct | internalProduct | union | intersection
  deriving DecidableEq, Repr

def BinaryOperator.text : BinaryOperator → String
  | addition => "+" | subtraction => "-" | multiplication => "*" | division => "/"
  | exponent => "^" | plusMinus => "\\pm" | setDifference => "\\setminus"
  | conjunction => "\\wedge" | disjunction => "\\vee" | exclusiveOr => "\\oplus"
  | externalProduct => "\\extprod" | internalProduct => "\\intprod"
  | union => "\\cup" | intersection => "\\cap"

inductive UnaryOperator where
  | negation | complement
  deriving DecidableEq, Repr

def UnaryOperator.text : UnaryOperator → String
  | negation => "-" | complement => "\\neg"

inductive Relation where
  | equals | approx | lessEq | greaterEq | less | greater | congruent | member | notMember
  deriving DecidableEq, Repr

namespace Relation

def all : List Relation :=
  [equals, approx, lessEq, greaterEq, less, greater, congruent, member, notMember]

def spelling : Relation → String
  | equals => "equals" | approx => "approx" | lessEq => "leq" | greaterEq => "geq"
  | less => "less" | greater => "greater" | congruent => "ifcong" | member => "ifin"
  | notMember => "ifnin"

def text (r : Relation) : String := "\\" ++ r.spelling

end Relation

inductive SetRelation where
  | equivalent | similar | similarEq | subset | superset | subsetEq | supersetEq
  | parallel | perpendicular | models | congruent | member | notMember
  deriving DecidableEq, Repr

namespace SetRelation

def all : List SetRelation :=
  [equivalent, similar, similarEq, subset, superset, subsetEq, supersetEq,
   parallel, perpendicular, models, congruent, member, notMember]

def spelling : SetRelation → String
  | equivalent => "equiv" | similar => "sim" | similarEq => "simeq" | subset => "subset"
  | superset => "supset" | subsetEq => "subseteq" | supersetEq => "supseteq"
  | parallel => "parallel" | perpendicular => "perp" | models => "models"
  | congruent => "cong" | member => "in" | notMember => "ni"

def label : SetRelation → String
  | equivalent => "SetRelation.EQUIVALENT" | similar => "SetRelation.SIMILAR"
  | similarEq => "SetRelation.SIMILAR_EQ" | subset => "SetRelation.SUBSET"
  | superset => "SetRelation.SUPERSET" | subsetEq => "SetRelation.SUBSET_EQ"
  | supersetEq => "SetRelation.SUPERSET_EQ" | parallel => "SetRelation.PARALLEL"
  | perpendicular => "SetRelation.PERPENDICULAR" | models => "SetRelation.MODELS"
  | congruent => "SetRelation.CONGRUENT" | member => "SetRelation.IN"
  | notMember => "SetRelation.NOT_IN"

end SetRelation

inductive BigOperator where
  | forAll | sum | product | union | intersection | conjunction | disjunction
  deriving DecidableEq, Repr

namespace BigOperator

def all : List BigOperator :=
  [forAll, sum, product, union, intersection, conjunction, disjunction]

def spelling : BigOperator → String
  | forAll => "forall" | sum => "sum" | product => "prod" | union => "bigcup"
  | intersection => "bigcap" | conjunction => "bigwedge" | disjunction => "bigvee"

def label : BigOperator → String
  | forAll => "BigOperator.FORALL" | sum => "BigOperator.SUM"
  | product => "BigOperator.PRODUCT" | union => "BigOperator.UNION"
  | intersection => "BigOperator.INTERSECTION" | conjunction => "BigOperator.AND"
  | disjunction => "BigOperator.OR"

end BigOperator

inductive NumberSet where
  | integers | reals | rationals | complexes | naturals
  deriving DecidableEq, Repr

namespace NumberSet

def all : List NumberSet := [integers, reals, rationals, complexes, naturals]

def letter : NumberSet → Char
  | integers => 'Z' | reals => 'R' | rationals => 'Q' | complexes => 'C' | naturals => 'N'

def text (s : NumberSet) : String := "\\" ++ String.singleton s.letter

def label : NumberSet → String
  | integers => "<NumberSet.INTEGERS: 'Z'>" | reals => "<NumberSet.REALS: 'R'>"
  | rationals => "<NumberSet.RATIONALS: 'Q'>" | complexes => "<NumberSet.COMPLEX: 'C'>"
  | naturals => "<NumberSet.NATURALS: 'N'>"

def ofLetter? (c : Char) : Option NumberSet := all.find? (fun s => s.letter = c)

theorem ofLetterLetter (s : NumberSet) : ofLetter? s.letter = some s := by cases s <;> rfl

end NumberSet

inductive Connective where
  | operator (o : BinaryOperator)
  | relation (r : Relation)
  deriving DecidableEq, Repr

def Connective.text : Connective → String
  | operator o => o.text
  | relation r => r.text

inductive Operation where
  | unary (u : UnaryOperator)
  | binary (c : Connective)
  deriving DecidableEq, Repr

def Operation.text : Operation → String
  | unary u => u.text
  | binary c => c.text

end LiterateMath
