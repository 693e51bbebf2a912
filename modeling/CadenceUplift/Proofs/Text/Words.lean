import CadenceUplift.Text.Class

namespace CadenceUplift.Word

def pub : List Char := ['p', 'u', 'b']

def set : List Char := ['s', 'e', 't']

def access : List Char := ['a', 'c', 'c', 'e', 's', 's']

def all : List Char := ['a', 'l', 'l']

def account : List Char := ['a', 'c', 'c', 'o', 'u', 'n', 't']

def storage : List Char := ['s', 't', 'o', 'r', 'a', 'g', 'e']

def capabilities : List Char := ['c', 'a', 'p', 'a', 'b', 'i', 'l', 'i', 't', 'i', 'e', 's']

def get : List Char := ['g', 'e', 't']

def link : List Char := ['l', 'i', 'n', 'k']

def importing : List Char := ['i', 'm', 'p', 'o', 'r', 't']

def source : List Char := ['f', 'r', 'o', 'm']

def interface : List Char := ['i', 'n', 't', 'e', 'r', 'f', 'a', 'c', 'e']

def function : List Char := ['f', 'u', 'n']

def view : List Char := ['v', 'i', 'e', 'w']

/-- The words that open a declaration with conformances. -/
def types : List (List Char) :=
  [['r', 'e', 's', 'o', 'u', 'r', 'c', 'e'], ['s', 't', 'r', 'u', 'c', 't'],
    ['c', 'o', 'n', 't', 'r', 'a', 'c', 't']]

/-- The words that open a declaration. -/
def declarations : List (List Char) :=
  [['v', 'a', 'r'], ['l', 'e', 't'], function, ['r', 'e', 's', 'o', 'u', 'r', 'c', 'e'],
    ['s', 't', 'r', 'u', 'c', 't'], ['c', 'o', 'n', 't', 'r', 'a', 'c', 't'], interface,
    ['e', 'v', 'e', 'n', 't']]

/-- The words that open the name of a getter. -/
def getters : List (List Char) :=
  [get, ['r', 'e', 'a', 'd'], ['c', 'h', 'e', 'c', 'k'], ['i', 's'], ['h', 'a', 's'], ['c', 'a', 'n']]

end CadenceUplift.Word
