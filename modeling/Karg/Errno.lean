import Mathlib.Init

namespace Karg

def enxio : Int := 6

def ebadf : Int := 9

def echild : Int := 10

def eagain : Int := 11

def enomem : Int := 12

def eacces : Int := 13

def efault : Int := 14

def einval : Int := 22

end Karg
