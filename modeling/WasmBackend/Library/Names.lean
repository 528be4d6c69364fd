/-
The names that library functions, and code that calls them, agree on.
-/
import WasmBackend.Word

namespace WasmBackend.Library

namespace Heap

def alloc : String := "malloc"

def memory : String := "memory"

/-- The global that holds the next free address. -/
def top : String := "heap_top"

end Heap

namespace Pair

def new : String := "tuple_new"

def first : String := "tuple_get0"

def second : String := "tuple_get1"

end Pair

namespace Env

def new : String := "env_new"

def get : String := "env_get"

def parent : String := "env_parent"

/-- The local that holds the current environment in every compiled function. -/
def current : String := "env"

end Env

namespace Lists

def empty : String := "list_new"

def push : String := "list_push"

def isEmpty : String := "list_is_empty"

def head : String := "list_head"

def tail : String := "list_tail"

end Lists

namespace Floats

def new : String := "float_new"

def get : String := "float_get"

end Floats

namespace Closures

def new : String := "closure_new"

def env : String := "closure_env"

def index : String := "closure_index"

/-- The table that holds the code of every function literal. -/
def table : String := "closures"

/-- The signature that all function literals share: from an environment to a result. -/
def type : String := "closure_fn"

end Closures

namespace Matchers

def wildcard : String := "match_wildcard"

def emptyList : String := "match_empty_list"

def identifier : String := "match_identifier"

/-- The word that a matcher returns when the value does not match. -/
def failure : Word := 0

end Matchers

end WasmBackend.Library
