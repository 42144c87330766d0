/-!
# What the target language provides

Functions and distributions of the target language. Every distribution comes with a random number
generator, the function of the same name with a suffix.
-/

namespace Stratify

structure Primitives where
  funcs : List String
  dists : List String
deriving Repr, Inhabited

namespace Primitives

def rngSuffix : String :=
  "_rng"

def defaultFuncs : List String := [
  "abs", "acos", "asin", "atan", "atan2", "cbrt", "ceil", "cos", "cosh", "cols", "dims",
  "dot_product", "erf", "erfc", "exp", "exp2", "expm1", "fabs", "floor", "fmax", "fmin", "inv",
  "inv_logit", "inv_sqrt", "lgamma", "log", "log10", "log1p", "log2", "log_sum_exp", "logit",
  "max", "mean", "min", "num_elements", "pow", "rep_array", "rep_vector", "round", "rows", "sd",
  "sin", "sinh", "size", "softmax", "sqrt", "square", "sum", "tan", "tanh", "tgamma", "trunc",
  "variance"]

def defaultDists : List String := [
  "bernoulli", "bernoulli_logit", "beta", "binomial", "categorical", "cauchy", "chi_square",
  "dirichlet", "double_exponential", "exponential", "gamma", "inv_gamma", "lognormal",
  "multi_normal", "neg_binomial", "normal", "poisson", "poisson_log", "student_t", "uniform",
  "weibull"]

/-- The default primitives and some more. -/
def withExtra (funcs dists : List String) : Primitives :=
  ⟨defaultFuncs ++ funcs, defaultDists ++ dists⟩

def isDist (p : Primitives) (name : String) : Bool :=
  p.dists.contains name

/-- The generator of every distribution is a function. -/
def isFunc (p : Primitives) (name : String) : Bool :=
  p.funcs.contains name || p.dists.any fun d ↦ d ++ rngSuffix == name

/-- Generators are known by their suffix alone. -/
def isRng (name : String) : Bool :=
  rngSuffix.toList.isSuffixOf name.toList

def sorted (names : List String) : List String :=
  names.eraseDups.mergeSort fun a b ↦ decide (a ≤ b)

end Primitives

end Stratify
